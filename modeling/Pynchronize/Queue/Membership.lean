import Mathlib.Data.Finset.Filter
import Pynchronize.Queue.Detector
import Pynchronize.Queue.Md5
import Pynchronize.Queue.Ring

/-!
# The ring and the failure detector

How a QueueNode keeps its ring in step with its failure detector. A death is
reported by a direct call inside `_check_nodes`, a recovery by a task that
`record_heartbeat` leaves to the event loop, and the callback looks only at the
pair of statuses it was given. The ring is right as long as no recovery is
handled after its node has died again.
-/

namespace Pynchronize

open Lib

/-- `_on_node_status_change` of a QueueNode; an error when `remove_node` raises. -/
def onNodeStatusChange (hash : String → ℕ) (h : ConsistentHash) (change : StatusChange) :
    Except ConsistentHash ConsistentHash :=
  if change.newStatus = .dead then h.removeNode hash change.nodeId
  else if change.newStatus = .alive ∧ change.oldStatus = .dead then
    .ok (h.addNode hash change.nodeId)
  else .ok h

/-- `tasks` are the callbacks that wait for the event loop, `checking` says that the task of
    `_check_loop` has not ended in an exception. -/
structure Membership where
  failureDetector : FailureDetector
  consistentHash : ConsistentHash
  tasks : List StatusChange := []
  checking : Bool := true

namespace Membership

inductive Event
  | heartbeat (nodeId : String) (now : ℚ)
  | check (now : ℚ)
  | callback (i : ℕ)

/-- After `_on_start`: `clock` gives the reading at each node's registration. -/
def start (hash : String → ℕ) (heartbeatInterval : ℚ) (nodeId : String) (nodes : List String)
    (clock : String → ℚ) : Membership where
  failureDetector := (nodes.filter (· ≠ nodeId)).foldl (fun d n => d.registerNode (clock n) n)
    { nodeId := nodeId, heartbeatInterval := heartbeatInterval }
  consistentHash := nodes.foldl (ConsistentHash.addNode hash) {}

/-- The callback runs to its end: it does not wait for anything. -/
def call (hash : String → ℕ) (m : Membership) (change : StatusChange) : Membership :=
  { m with consistentHash :=
      ConsistentHash.leftBy (onNodeStatusChange hash m.consistentHash change) }

def heartbeat (m : Membership) (now : ℚ) (nodeId : String) : Membership :=
  let (d, change) := m.failureDetector.recordHeartbeat now nodeId
  { m with failureDetector := d, tasks := m.tasks ++ change.toList }

/-- One round of `_check_nodes` with the callback it waits for. -/
def checkRound (hash : String → ℕ) (now : ℚ) (m : Membership) (nodeId : String) : Membership :=
  match m.failureDetector.checkNode now nodeId with
  | none => { m with checking := false }
  | some (d, none) => { m with failureDetector := d }
  | some (d, some change) =>
    let m := { m with failureDetector := d }
    match onNodeStatusChange hash m.consistentHash change with
    | .ok _ => m.call hash change
    | .error _ => { m.call hash change with checking := false }

def checkNodes (hash : String → ℕ) (now : ℚ) (m : Membership) : List String → Membership
  | [] => m
  | nodeId :: rest =>
    let m := m.checkRound hash now nodeId
    if m.checking then m.checkNodes hash now rest else m

def step (hash : String → ℕ) (m : Membership) : Event → Option Membership
  | .heartbeat nodeId now => some (m.heartbeat now nodeId)
  | .check now =>
    if m.checking then some (m.checkNodes hash now m.failureDetector.nodes.keys) else none
  | .callback i => m.tasks[i]?.map fun change =>
    { m.call hash change with tasks := m.tasks.eraseIdx i }

/-- The ring holds the configured nodes that are not dead. -/
def Follows (nodes : Finset String) (m : Membership) : Prop :=
  m.consistentHash.nodes =
    nodes.filter fun n => m.failureDetector.getNodeStatus n ≠ some .dead

instance (nodes : Finset String) (m : Membership) : Decidable (Follows nodes m) :=
  inferInstanceAs (Decidable (_ = _))

/-- A callback that puts a node back is not run while the node is dead. -/
def Timely (m : Membership) : Event → Prop
  | .callback i => ∀ change ∈ m.tasks[i]?, change.oldStatus = .dead →
    m.failureDetector.getNodeStatus change.nodeId ≠ some .dead
  | _ => True

instance (m : Membership) : ∀ event, Decidable (m.Timely event)
  | .callback i => inferInstanceAs (Decidable (∀ change ∈ m.tasks[i]?, _))
  | .heartbeat .. => inferInstanceAs (Decidable True)
  | .check _ => inferInstanceAs (Decidable True)

variable {hash : String → ℕ} {nodes : Finset String} {m m' : Membership} {change : StatusChange}

/-! ## The callback -/

variable (hash m) in
theorem call_nodes_dead (h : change.newStatus = .dead) :
    (m.call hash change).consistentHash.nodes = m.consistentHash.nodes.erase change.nodeId := by
  unfold call onNodeStatusChange
  rw [if_pos h]
  exact ConsistentHash.removeNode_nodes hash m.consistentHash change.nodeId

variable (hash m) in
theorem call_nodes_recovered (h : change.newStatus = .alive) (hold : change.oldStatus = .dead) :
    (m.call hash change).consistentHash.nodes = insert change.nodeId m.consistentHash.nodes := by
  unfold call onNodeStatusChange
  rw [if_neg (by rw [h]; decide), if_pos ⟨h, hold⟩]
  exact ConsistentHash.addNode_nodes hash m.consistentHash change.nodeId

theorem call_nodes_other (h : change.newStatus ≠ .dead)
    (hnot : ¬(change.newStatus = .alive ∧ change.oldStatus = .dead)) :
    (m.call hash change).consistentHash.nodes = m.consistentHash.nodes := by
  unfold call onNodeStatusChange
  rw [if_neg h, if_neg hnot]
  rfl

/-! ## What holds along a run -/

/-- Dead nodes are out, the others are in unless their recovery is still to be handled. -/
structure Tracks (nodes : Finset String) (m : Membership) : Prop where
  ring_sub : ∀ n ∈ m.consistentHash.nodes, n ∈ nodes
  known : ∀ n state, m.failureDetector.nodes.get? n = some state → n ∈ nodes
  missed : ∀ n state, m.failureDetector.nodes.get? n = some state → state.status = .dead →
    m.failureDetector.deadThreshold ≤ state.missedHeartbeats
  dead_out : ∀ n state, m.failureDetector.nodes.get? n = some state → state.status = .dead →
    n ∉ m.consistentHash.nodes
  live_in : ∀ n ∈ nodes, m.failureDetector.getNodeStatus n ≠ some .dead →
    n ∈ m.consistentHash.nodes ∨ ⟨n, .dead, .alive⟩ ∈ m.tasks
  tasks : ∀ change ∈ m.tasks, change.newStatus = .alive ∧ change.nodeId ∈ nodes

theorem getNodeStatus_eq {d : FailureDetector} {n : String} {status : NodeStatus}
    (h : d.getNodeStatus n = some status) :
    ∃ state, d.nodes.get? n = some state ∧ state.status = status :=
  Option.map_eq_some_iff.mp h

/-- One node gets a new state, and the ring loses it when that state is `DEAD`. -/
theorem Tracks.sets (ht : Tracks nodes m) {n : String} {old new : NodeState}
    {r : FailureDetector × Option StatusChange} (hs : m.failureDetector.Sets n old new r)
    (hd : m'.failureDetector = r.1)
    (hmissed : new.status = .dead → m.failureDetector.deadThreshold ≤ new.missedHeartbeats)
    (hring : m'.consistentHash.nodes = if new.status = .dead then m.consistentHash.nodes.erase n
      else m.consistentHash.nodes)
    (hold : ∀ change ∈ m.tasks, change ∈ m'.tasks)
    (hnew : ∀ change ∈ m'.tasks, change ∈ m.tasks ∨ change.newStatus = .alive ∧ change.nodeId = n)
    (hlive : new.status ≠ .dead →
      n ∈ m.consistentHash.nodes ∨ ⟨n, .dead, .alive⟩ ∈ m'.tasks) : Tracks nodes m' := by
  have hget : ∀ n', m'.failureDetector.nodes.get? n' =
      if n = n' then some new else m.failureDetector.nodes.get? n' := fun n' => hd ▸ hs.get? n'
  have hthreshold : m'.failureDetector.deadThreshold = m.failureDetector.deadThreshold := by
    rw [hd, hs.result]
  have hsub : ∀ n' ∈ m'.consistentHash.nodes, n' ∈ m.consistentHash.nodes := by
    intro n' hn'
    rw [hring] at hn'
    split at hn'
    · exact Finset.mem_of_mem_erase hn'
    · exact hn'
  have hstay : ∀ n', (n = n' → new.status ≠ .dead) → n' ∈ m.consistentHash.nodes →
      n' ∈ m'.consistentHash.nodes := by
    intro n' hne hn'
    rw [hring]
    split
    · rename_i hdead
      refine Finset.mem_erase.mpr ⟨?_, hn'⟩
      rintro rfl
      exact hne rfl hdead
    · exact hn'
  have hin := ht.known n old hs.known
  constructor
  case ring_sub => exact fun n' hn' => ht.ring_sub n' (hsub n' hn')
  case known =>
    intro n' state hstate
    rw [hget] at hstate
    split at hstate
    · rename_i heq
      exact heq ▸ hin
    · exact ht.known n' state hstate
  case missed =>
    intro n' state hstate hdead
    rw [hget] at hstate
    rw [hthreshold]
    split at hstate
    · obtain rfl := Option.some.inj hstate
      exact hmissed hdead
    · exact ht.missed n' state hstate hdead
  case dead_out =>
    intro n' state hstate hdead hn'
    rw [hget] at hstate
    split at hstate
    · rename_i heq
      obtain rfl := Option.some.inj hstate
      rw [hring, if_pos hdead] at hn'
      exact (Finset.mem_erase.mp hn').1 heq.symm
    · exact ht.dead_out n' state hstate hdead (hsub n' hn')
  case live_in =>
    intro n' hn' hstatus
    unfold FailureDetector.getNodeStatus at hstatus
    rw [hget] at hstatus
    by_cases heq : n = n'
    · subst heq
      have hnew : new.status ≠ .dead := fun h => hstatus (by simp [h])
      exact (hlive hnew).imp (hstay n fun _ => hnew) id
    · rw [if_neg heq] at hstatus
      exact (ht.live_in n' hn' hstatus).imp (hstay n' fun h => absurd h heq) (hold _)
  case tasks =>
    intro change hchange
    rcases hnew change hchange with hmem | ⟨halive, hnode⟩
    · exact ht.tasks change hmem
    · exact ⟨halive, hnode ▸ hin⟩

/-! ## The steps -/

theorem Tracks.live_of_known (ht : Tracks nodes m) {n : String} {state : NodeState}
    (hget : m.failureDetector.nodes.get? n = some state) (hlive : state.status ≠ .dead) :
    n ∈ m.consistentHash.nodes ∨ ⟨n, .dead, .alive⟩ ∈ m.tasks := by
  refine ht.live_in n (ht.known n state hget) fun h => ?_
  obtain ⟨state', hget', hdead⟩ := getNodeStatus_eq h
  obtain rfl := Option.some.inj (hget.symm.trans hget')
  exact hlive hdead

theorem Tracks.heartbeat (ht : Tracks nodes m) (now : ℚ) (nodeId : String) :
    Tracks nodes (m.heartbeat now nodeId) := by
  have hring : (m.heartbeat now nodeId).consistentHash = m.consistentHash := rfl
  have htasks : (m.heartbeat now nodeId).tasks =
      m.tasks ++ (m.failureDetector.recordHeartbeat now nodeId).2.toList := rfl
  rcases m.failureDetector.recordHeartbeat_cases now nodeId with h | ⟨old, hs⟩
  · unfold Membership.heartbeat
    rw [h]
    simpa using ht
  have hold : ∀ change ∈ m.tasks, change ∈ (m.heartbeat now nodeId).tasks := by
    rw [htasks]
    exact fun change hchange => List.mem_append_left _ hchange
  refine ht.sets hs rfl (fun h => by cases h) (by rw [hring]; rfl) hold (fun change hchange => ?_)
    fun _ => ?_
  · rw [htasks] at hchange
    exact (List.mem_append.mp hchange).imp id FailureDetector.mem_recordHeartbeat
  · by_cases hdead : old.status = .dead
    · right
      rw [htasks, hs.change, hdead]
      exact List.mem_append_right _ (List.mem_singleton_self _)
    · exact (ht.live_of_known hs.known hdead).imp id (hold _)

/-- What a round does besides the new state of its node. -/
theorem checkRound_cases (hash : String → ℕ) (m : Membership) (now : ℚ) (nodeId : String) :
    (∃ checking, m.checkRound hash now nodeId = { m with checking := checking }) ∨
      ∃ r, m.failureDetector.checkNode now nodeId = some r ∧
        (m.checkRound hash now nodeId).failureDetector = r.1 ∧
        (m.checkRound hash now nodeId).tasks = m.tasks ∧
        (m.checkRound hash now nodeId).consistentHash = match r.2 with
          | none => m.consistentHash
          | some change => (m.call hash change).consistentHash := by
  unfold checkRound
  cases h : m.failureDetector.checkNode now nodeId with
  | none => exact Or.inl ⟨false, rfl⟩
  | some r =>
    obtain ⟨d, change⟩ := r
    cases change with
    | none => exact Or.inr ⟨(d, none), rfl, rfl, rfl, rfl⟩
    | some change =>
      right
      refine ⟨(d, some change), rfl, ?_⟩
      dsimp only
      split <;> exact ⟨rfl, rfl, rfl⟩

variable (hash) in
/-- A dead node can only stay dead, since its count is past the threshold already. -/
theorem Tracks.checkRound (ht : Tracks nodes m) (now : ℚ) (nodeId : String) :
    Tracks nodes (m.checkRound hash now nodeId) := by
  rcases checkRound_cases hash m now nodeId with ⟨checking, h⟩ | ⟨r, hr, hd, htasks, hring⟩
  · rw [h]
    exact ⟨ht.1, ht.2, ht.3, ht.4, ht.5, ht.6⟩
  rcases FailureDetector.checkNode_spec hr with ⟨rfl, -⟩ | ⟨old, hs, hmissed⟩
  · exact ⟨by rw [hring]; exact ht.1, by rw [hd]; exact ht.2, by rw [hd]; exact ht.3,
      by rw [hd, hring]; exact ht.4, by rw [hd, hring, htasks]; exact ht.5,
      by rw [htasks]; exact ht.6⟩
  have hsame : ∀ change ∈ m.tasks, change ∈ (m.checkRound hash now nodeId).tasks := by
    rw [htasks]
    exact fun _ h => h
  have hstatus := FailureDetector.checkedState_status hmissed
  generalize m.failureDetector.checkedState now old = new at hs hmissed hstatus
  rcases hstatus with ⟨hdead, hnew⟩ | ⟨hlow, hnew⟩
  · refine ht.sets hs hd (fun _ => hdead) ?_ hsame (fun change h => Or.inl (htasks ▸ h))
      fun h => absurd hnew h
    rw [if_pos hnew, hring, hs.change, hnew]
    split
    · rename_i hnone
      split at hnone
      · rename_i hold
        exact (Finset.erase_eq_of_notMem (ht.dead_out nodeId old hs.known hold)).symm
      · cases hnone
    · rename_i change hsome
      split at hsome
      · cases hsome
      · obtain rfl := Option.some.inj hsome
        exact call_nodes_dead hash m rfl
  · have hold : old.status ≠ .dead := by
      intro h
      have := ht.missed nodeId old hs.known h
      omega
    have hnewLive : new.status ≠ .dead := by
      rcases hnew with h | h
      · rw [h]
        decide
      · rwa [h]
    refine ht.sets hs hd (fun h => absurd h hnewLive) ?_ hsame
      (fun change h => Or.inl (htasks ▸ h)) fun _ => ?_
    · rw [if_neg hnewLive, hring, hs.change]
      split
      · rfl
      · rename_i change hsome
        split at hsome
        · cases hsome
        · obtain rfl := Option.some.inj hsome
          exact call_nodes_other hnewLive fun h => hold h.2
    · exact (ht.live_of_known hs.known hold).imp id (hsame _)

variable (hash) in
theorem Tracks.checkNodes (ht : Tracks nodes m) (now : ℚ) (l : List String) :
    Tracks nodes (m.checkNodes hash now l) := by
  induction l generalizing m with
  | nil => exact ht
  | cons nodeId rest ih =>
    have hround := ht.checkRound hash now nodeId
    unfold Membership.checkNodes
    dsimp only
    split
    · exact ih hround
    · exact hround

theorem Tracks.call (ht : Tracks nodes m) {i : ℕ} (htimely : m.Timely (.callback i))
    (hi : m.tasks[i]? = some change) :
    Tracks nodes { m.call hash change with tasks := m.tasks.eraseIdx i } := by
  obtain ⟨halive, hnode⟩ := ht.tasks change (List.mem_of_getElem? hi)
  have hrest : ∀ other ∈ m.tasks.eraseIdx i, other ∈ m.tasks := fun other h =>
    (List.eraseIdx_subset) h
  have hkept : ∀ other ∈ m.tasks, other = change ∨ other ∈ m.tasks.eraseIdx i := by
    intro other hother
    obtain ⟨j, hj⟩ := List.mem_iff_getElem?.mp hother
    by_cases hij : j = i
    · subst hij
      exact Or.inl (Option.some.inj (hj.symm.trans hi))
    · exact Or.inr (List.mem_eraseIdx_iff_getElem?.mpr ⟨j, hij, hj⟩)
  by_cases hold : change.oldStatus = .dead
  · have hring := call_nodes_recovered hash m halive hold
    have hlive : m.failureDetector.getNodeStatus change.nodeId ≠ some .dead :=
      htimely change hi hold
    refine ⟨fun n hn => ?_, ht.known, ht.missed, fun n state hget hdead hn => ?_,
      fun n hn hstatus => ?_, fun other h => ht.tasks other (hrest other h)⟩
    · rcases Finset.mem_insert.mp (hring ▸ hn) with rfl | hn
      · exact hnode
      · exact ht.ring_sub n hn
    · rcases Finset.mem_insert.mp (hring ▸ hn) with rfl | hn
      · exact hlive (Option.map_eq_some_iff.mpr ⟨state, hget, hdead⟩)
      · exact ht.dead_out n state hget hdead hn
    · show n ∈ (m.call hash change).consistentHash.nodes ∨ _
      rw [hring, Finset.mem_insert]
      rcases ht.live_in n hn hstatus with hin | hpending
      · exact Or.inl (Or.inr hin)
      · rcases hkept _ hpending with rfl | hmem
        · exact Or.inl (Or.inl rfl)
        · exact Or.inr hmem
  · have hring : (m.call hash change).consistentHash.nodes = m.consistentHash.nodes :=
      call_nodes_other (by rw [halive]; decide) fun h => hold h.2
    refine ⟨fun n hn => ht.ring_sub n (hring ▸ hn), ht.known, ht.missed,
      fun n state hget hdead hn => ht.dead_out n state hget hdead (hring ▸ hn),
      fun n hn hstatus => ?_, fun other h => ht.tasks other (hrest other h)⟩
    show n ∈ (m.call hash change).consistentHash.nodes ∨ _
    rw [hring]
    refine (ht.live_in n hn hstatus).imp id fun hpending => ?_
    rcases hkept _ hpending with rfl | hmem
    · exact absurd rfl hold
    · exact hmem

theorem Tracks.step (ht : Tracks nodes m) {event : Event} (htimely : m.Timely event)
    (h : m.step hash event = some m') : Tracks nodes m' := by
  cases event with
  | heartbeat nodeId now => exact Option.some.inj h ▸ ht.heartbeat now nodeId
  | check now =>
    unfold Membership.step at h
    dsimp only at h
    split at h
    · exact Option.some.inj h ▸ ht.checkNodes hash now _
    · cases h
  | callback i =>
    obtain ⟨change, hi, rfl⟩ := Option.map_eq_some_iff.mp h
    exact ht.call htimely hi

/-! ## Tasks -/

/-- Only recoveries are left to the event loop. -/
def Recoveries (m : Membership) : Prop := ∀ change ∈ m.tasks, change.newStatus = .alive

theorem tasks_checkNodes (hash : String → ℕ) (now : ℚ) (m : Membership) (l : List String) :
    (m.checkNodes hash now l).tasks = m.tasks := by
  induction l generalizing m with
  | nil => rfl
  | cons nodeId rest ih =>
    have hround : (m.checkRound hash now nodeId).tasks = m.tasks := by
      rcases checkRound_cases hash m now nodeId with ⟨checking, h⟩ | ⟨r, -, -, htasks, -⟩
      · rw [h]
      · exact htasks
    unfold checkNodes
    dsimp only
    split
    · exact (ih _).trans hround
    · exact hround

theorem Recoveries.step (hr : Recoveries m) {event : Event} (h : m.step hash event = some m') :
    Recoveries m' := by
  cases event with
  | heartbeat nodeId now =>
    obtain rfl := Option.some.inj h
    intro change hchange
    rcases List.mem_append.mp hchange with hmem | hmem
    · exact hr change hmem
    · exact (FailureDetector.mem_recordHeartbeat hmem).1
  | check now =>
    unfold Membership.step at h
    dsimp only at h
    split at h
    · obtain rfl := Option.some.inj h
      unfold Recoveries
      rw [tasks_checkNodes]
      exact hr
    · cases h
  | callback i =>
    obtain ⟨change, -, rfl⟩ := Option.map_eq_some_iff.mp h
    exact fun other hother => hr other (List.eraseIdx_subset hother)

/-- A recovery handled while its node is dead puts the dead node on the ring. -/
theorem not_follows_of_late (hr : Recoveries m) {i : ℕ} (h : m.step hash (.callback i) = some m')
    (hlate : ¬ m.Timely (.callback i)) : ¬ Follows nodes m' := by
  obtain ⟨change, hi, rfl⟩ := Option.map_eq_some_iff.mp h
  intro hfollows
  refine hlate fun other hother hold hdead => ?_
  obtain rfl := Option.some.inj (hi.symm.trans hother)
  have hring := call_nodes_recovered hash m
    (hr change (List.mem_of_getElem? hi)) hold
  have hmem : change.nodeId ∈ (m.call hash change).consistentHash.nodes := by
    rw [hring]
    exact Finset.mem_insert_self ..
  rw [hfollows] at hmem
  exact (Finset.mem_filter.mp hmem).2 hdead

/-! ## From the start -/

theorem registerNode_get? {now : ℚ} {d : FailureDetector} {nodeId n : String} {state : NodeState}
    (h : (d.registerNode now nodeId).nodes.get? n = some state) :
    d.nodes.get? n = some state ∨ n = nodeId ∧ state.status = .alive := by
  unfold FailureDetector.registerNode at h
  split at h
  · rw [Dict.get?_set] at h
    split at h
    · rename_i heq
      exact Or.inr ⟨heq.symm, (Option.some.inj h) ▸ rfl⟩
    · exact Or.inl h
  · exact Or.inl h

/-- All registered nodes are alive. -/
theorem foldl_registerNode (clock : String → ℚ) {l : List String} {d : FailureDetector}
    {n : String} {state : NodeState}
    (h : (l.foldl (fun d n => d.registerNode (clock n) n) d).nodes.get? n = some state) :
    d.nodes.get? n = some state ∨ n ∈ l ∧ state.status = .alive := by
  induction l generalizing d with
  | nil => exact Or.inl h
  | cons a l ih =>
    rcases ih h with hfirst | ⟨hmem, halive⟩
    · exact (registerNode_get? hfirst).imp id fun ⟨heq, halive⟩ =>
        ⟨heq ▸ List.mem_cons_self .., halive⟩
    · exact Or.inr ⟨List.mem_cons_of_mem _ hmem, halive⟩

theorem foldl_addNode_nodes (hash : String → ℕ) (l : List String) (h : ConsistentHash) :
    (l.foldl (ConsistentHash.addNode hash) h).nodes = h.nodes ∪ l.toFinset := by
  induction l generalizing h with
  | nil => simp
  | cons a l ih =>
    rw [List.foldl_cons, ih, ConsistentHash.addNode_nodes, List.toFinset_cons,
      Finset.insert_union, Finset.union_insert]

theorem tracks_start (hash : String → ℕ) (heartbeatInterval : ℚ) (nodeId : String)
    (nodes : List String) (clock : String → ℚ) :
    Tracks nodes.toFinset (start hash heartbeatInterval nodeId nodes clock) := by
  have hring : (start hash heartbeatInterval nodeId nodes clock).consistentHash.nodes =
      nodes.toFinset := by
    unfold start
    rw [foldl_addNode_nodes]
    exact Finset.empty_union _
  have hstate : ∀ n state, (start hash heartbeatInterval nodeId nodes
      clock).failureDetector.nodes.get? n = some state → n ∈ nodes ∧ state.status = .alive := by
    intro n state hget
    rcases foldl_registerNode clock hget with hnone | ⟨hmem, halive⟩
    · cases hnone
    · exact ⟨List.mem_of_mem_filter hmem, halive⟩
  constructor
  case ring_sub => exact fun n hn => hring ▸ hn
  case known => exact fun n state hget => List.mem_toFinset.mpr (hstate n state hget).1
  case missed =>
    intro n state hget hdead
    rw [(hstate n state hget).2] at hdead
    cases hdead
  case dead_out =>
    intro n state hget hdead
    rw [(hstate n state hget).2] at hdead
    cases hdead
  case live_in => exact fun n hn _ => Or.inl (hring.symm ▸ hn)
  case tasks => exact fun change hchange => absurd hchange List.not_mem_nil

theorem Tracks.follows (ht : Tracks nodes m) (htasks : m.tasks = []) : Follows nodes m := by
  refine Finset.ext fun n => ⟨fun hn => Finset.mem_filter.mpr ⟨ht.ring_sub n hn, fun hdead => ?_⟩,
    fun hn => ?_⟩
  · obtain ⟨state, hget, hstatus⟩ := getNodeStatus_eq hdead
    exact ht.dead_out n state hget hstatus hn
  · obtain ⟨hin, hlive⟩ := Finset.mem_filter.mp hn
    refine (ht.live_in n hin hlive).resolve_right fun hpending => ?_
    rw [htasks] at hpending
    cases hpending

/-- The ring follows the detector when recoveries are handled in time; a recovery handled after
    another death, as the last callback, leaves a dead node on the ring. -/
theorem follows_of_timely (hash : String → ℕ) (heartbeatInterval : ℚ) (nodeId : String)
    (nodes : List String) (clock : String → ℚ) (events : List Event) (m : Membership)
    (hrun : Transition.run (step hash) (start hash heartbeatInterval nodeId nodes clock) events =
      some m) :
    (Transition.EachStep (step hash) Timely (start hash heartbeatInterval nodeId nodes clock)
      events → m.tasks = [] → Follows nodes.toFinset m) ∧
    ∀ i m', m.step hash (.callback i) = some m' → ¬ m.Timely (.callback i) →
      ¬ Follows nodes.toFinset m' := by
  constructor
  · intro htimely htasks
    have ht : Tracks nodes.toFinset m := Transition.run_preserves
      (fun _ _ _ ht htimely hstep => ht.step htimely hstep)
      (tracks_start hash heartbeatInterval nodeId nodes clock) htimely hrun
    exact ht.follows htasks
  · intro i m' hstep hlate
    have hr : Recoveries m := Transition.run_preserves (P := fun _ _ => True)
      (fun _ _ _ hr _ hstep => hr.step hstep)
      (fun change hchange => absurd hchange List.not_mem_nil)
      (Transition.eachStep_of_forall _ fun _ _ _ => trivial) hrun
    exact not_follows_of_late hr hstep hlate

/-- A node dies, comes back and is put back on the ring. -/
theorem follows_of_timely_recovery :
    ∃ m, Transition.run (step md5) (start md5 1 "a" ["a", "b"] fun _ => 0)
      [.check 5, .heartbeat "b" 6, .callback 0] = some m ∧ Follows {"a", "b"} m := by
  have hrun : (Transition.run (step md5) (start md5 1 "a" ["a", "b"] fun _ => 0)
      [.check 5, .heartbeat "b" 6, .callback 0]).any (fun m => m.tasks = []) = true ∧
      Transition.EachStep (step md5) Timely (start md5 1 "a" ["a", "b"] fun _ => 0)
        [.check 5, .heartbeat "b" 6, .callback 0] := by
    decide +kernel
  obtain ⟨m, hm, htasks⟩ := (Option.any_eq_true _ _).mp hrun.1
  exact ⟨m, hm, (follows_of_timely md5 1 "a" ["a", "b"] _ _ m hm).1 hrun.2
    (of_decide_eq_true htasks)⟩

/-- The recovery of `b` is handled only after `b` has died again. -/
theorem late_recovery :
    ∃ m, Transition.run (step md5) (start md5 1 "a" ["a", "b"] fun _ => 0)
      [.check 5, .heartbeat "b" 6, .check 11, .callback 0] = some m ∧ m.tasks = [] ∧
      ¬ Follows {"a", "b"} m := by
  have hrun : (Transition.run (step md5) (start md5 1 "a" ["a", "b"] fun _ => 0)
      [.check 5, .heartbeat "b" 6, .check 11, .callback 0]).any
        (fun m => m.tasks = [] ∧ ¬ Follows {"a", "b"} m) = true := by
    decide +kernel
  obtain ⟨m, hm, h⟩ := (Option.any_eq_true _ _).mp hrun
  exact ⟨m, hm, of_decide_eq_true h⟩

end Membership

end Pynchronize
