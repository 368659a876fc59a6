import Pynchronize.Raft.Commitment
import Pynchronize.Raft.LostLeadership
import Pynchronize.Raft.Timers

/-!
# The cluster on a clock

Every action comes at a time, and times do not run backwards. The clock also
keeps when an RPC was handed to `transport.send`, and since when a coroutine is
in its round of `_send_append_entries` or in the sleep after it. `TaskStep` says
what one step can make of a coroutine.
-/

namespace Pynchronize

open Lib

variable {N C : Type*}

structure Clock where
  now : ℚ
  sentAt : ℕ → ℚ
  since : ℕ → ℚ

structure TimedCluster (N C : Type*) where
  cluster : Cluster N C
  clock : Clock

/-- `_leader_heartbeat_loop` begins a round in coroutine `k`. -/
def Action.beginsRound (a : Action N C) (k : ℕ) : Bool :=
  match a with
  | .heartbeat k' => k' = k
  | _ => false

def Pc.isLooping : Pc N C → Bool
  | .looping => true
  | _ => false

/-- The clock after a step at time `t`, with the loops that begin a round. -/
def Clock.after (c : Clock) (s s' : Cluster N C) (begins : ℕ → Bool) (t : ℚ) : Clock where
  now := t
  sentAt j := if j < s.rpcs.length then c.sentAt j else t
  since k :=
    match s.tasks[k]? with
    | some task =>
      if begins k || !task.pc.isLooping && (s'.tasks[k]?).any (·.pc.isLooping) then t
      else c.since k
    | none => t

namespace TimedCluster

variable [DecidableEq N]

def boot (start : N → ℚ) (now : ℚ) : TimedCluster N C :=
  ⟨Cluster.boot start, ⟨now, fun _ => now, fun _ => now⟩⟩

def step (cfg : Config N) (s : TimedCluster N C) (a : ℚ × Action N C) :
    Option (TimedCluster N C) :=
  if s.clock.now ≤ a.1 ∧ ∀ now ∈ a.2.reads, now = a.1 then
    (s.cluster.step cfg a.2).map fun cluster =>
      ⟨cluster, s.clock.after s.cluster cluster a.2.beginsRound a.1⟩
  else none

def run (cfg : Config N) (s : TimedCluster N C) (acts : List (ℚ × Action N C)) :
    Option (TimedCluster N C) :=
  Transition.run (step cfg) s acts

/-- `P` holds at every step of a run. -/
abbrev EachStep (cfg : Config N) (P : TimedCluster N C → ℚ × Action N C → Prop)
    (s : TimedCluster N C) (acts : List (ℚ × Action N C)) : Prop :=
  Transition.EachStep (step cfg) P s acts

variable {cfg : Config N} {s s' : TimedCluster N C} {t : ℚ} {a : Action N C}

theorem step_cases (h : s.step cfg (t, a) = some s') :
    s.clock.now ≤ t ∧ (∀ now ∈ a.reads, now = t) ∧ s.cluster.step cfg a = some s'.cluster ∧
      s'.clock = s.clock.after s.cluster s'.cluster a.beginsRound t := by
  obtain ⟨⟨hle, hreads⟩, hs⟩ := Option.ite_none_right_eq_some.mp h
  obtain ⟨cluster, hcluster, rfl⟩ := Option.map_eq_some_iff.mp hs
  exact ⟨hle, hreads, hcluster, rfl⟩

theorem step_of_cluster (hle : s.clock.now ≤ t) (hreads : ∀ now ∈ a.reads, now = t)
    (hcluster : s.cluster.step cfg a = some s'.cluster)
    (hclock : s'.clock = s.clock.after s.cluster s'.cluster a.beginsRound t) :
    s.step cfg (t, a) = some s' := by
  unfold step
  rw [if_pos ⟨hle, hreads⟩, hcluster, Option.map_some, ← hclock]

end TimedCluster

/-! ## What a step makes of a coroutine -/

/-- The action that wakes coroutine `k` where it is suspended. -/
def Action.Wakes (a : Action N C) (k : ℕ) : Pc N C → Prop
  | .looping => a = .heartbeat k
  | .sending .. => a = .reply k ∨ a = .noReply k
  | .steppingDown _ => a = .resume k
  | .applying => a = .resume k
  | _ => False

/-- The nodes that the round of a coroutine has not come to. -/
def Task.remaining [DecidableEq N] (cfg : Config N) (task : Task N C) : List N :=
  match task.pc with
  | .looping => cfg.getOtherNodes task.node
  | .sending _ _ rest => rest
  | .steppingDown rest => rest
  | _ => []

theorem Action.Wakes.beginsRound {a : Action N C} {k : ℕ} {pc : Pc N C} (h : a.Wakes k pc) :
    a.beginsRound k = pc.isLooping := by
  cases pc with
  | looping =>
    obtain rfl := h
    exact decide_eq_true rfl
  | sending =>
    rcases h with rfl | rfl
    · rfl
    · rfl
  | steppingDown =>
    obtain rfl := h
    rfl
  | applying =>
    obtain rfl := h
    rfl
  | returned => cases h
  | raised => cases h
  | cancelled => cases h

namespace Cluster

/-- An AppendEntries to `nodeId` in the term of its sender. -/
structure Appends (s : Cluster N C) (i nodeId : N) (r : Rpc N C) : Prop where
  src : r.src = i
  dst : r.dst = nodeId
  stage : r.stage = .inFlight
  term : r.message.term = (s.nodes i).persistent.currentTerm
  payload : r.message.payload.isAppendEntries = true

inductive TaskStep [DecidableEq N] (cfg : Config N) (s : Cluster N C) (a : Action N C)
    (s' : Cluster N C) (k : ℕ) (task : Task N C) : Task N C → Prop
  | stays (hidle : a.beginsRound k = false) : TaskStep cfg s a s' k task task
  | cancelled (hcause : (∃ i, a = .becameLeader i ∧ (s.nodes i).electionTask = .becomingLeader) ∨
      ∃ now, a = .crash task.node now ∨ a = .crashSaving task.node now) :
      TaskStep cfg s a s' k task { task with pc := .cancelled }
  | raises (hcause : a = .raise k ∨ (s.nodes task.node).leaderState.isSome = false) :
      TaskStep cfg s a s' k task { task with pc := .raised }
  | stepsDown {o : RaftNode.Outgoing N C} {j : ℕ} {response : Message N Response}
      (hpc : task.pc = .sending o j (task.remaining cfg)) (hwakes : a.Wakes k task.pc)
      (hans : s.answerOf j = some response)
      (hlt : (s.nodes task.node).persistent.currentTerm < response.term) :
      TaskStep cfg s a s' k task { task with pc := .steppingDown (task.remaining cfg) }
  | sends {o : RaftNode.Outgoing N C} {nodeId : N} {rest : List N} {r : Rpc N C}
      (hwakes : a.Wakes k task.pc) (hrest : task.remaining cfg = nodeId :: rest)
      (hsent : s'.rpcs[s.rpcs.length]? = some r) (happends : Appends s task.node nodeId r) :
      TaskStep cfg s a s' k task { task with pc := .sending o s.rpcs.length rest }
  | ends {pc : Pc N C} (hwakes : a.Wakes k task.pc)
      (hrest : task.remaining cfg = [] ∨ task.pc = .looping ∧
        ((s.nodes task.node).state ≠ .leader ∨ (s.nodes task.node).leaderState.isSome = false))
      (hpc : pc = .applying ∨ pc = afterSend task.kind ∨
        pc = .returned ∧ (s.nodes task.node).state ≠ .leader) :
      TaskStep cfg s a s' k task { task with pc := pc }

variable [DecidableEq N] {cfg : Config N} {s s' : Cluster N C} {a : Action N C} {k : ℕ}
  {task : Task N C}

theorem TaskStep.kind {task' : Task N C} (h : TaskStep cfg s a s' k task task') :
    task'.kind = task.kind := by
  cases h <;> rfl

theorem taskStep_applied {u : Cluster N C} (htasks : u.tasks = s.tasks)
    (hk : s.tasks[k]? = some task) (hwakes : a.Wakes k task.pc)
    (hrest : task.remaining cfg = []) (result : RaftNode N C × Bool) :
    ∃ task', (u.applied k task result).tasks[k]? = some task' ∧
      TaskStep cfg s a (u.applied k task result) k task task' := by
  refine ⟨_, tasks_setPc (s := u.setNode task.node result.1) (by rw [← hk, ← htasks]; rfl) _,
    .ends hwakes (Or.inl hrest) ?_⟩
  split
  · exact Or.inl rfl
  · exact Or.inr (Or.inl rfl)

/-- The loop from its head on, in a cluster where the coroutine's node may have booked an answer. -/
theorem taskStep_sendNext {u : Cluster N C} (hrpcs : u.rpcs = s.rpcs) (htasks : u.tasks = s.tasks)
    (hstays : RaftNode.Stays (s.nodes task.node) (u.nodes task.node))
    (hk : s.tasks[k]? = some task) (hwakes : a.Wakes k task.pc) :
    ∃ task', (u.sendNext cfg k task (task.remaining cfg)).tasks[k]? = some task' ∧
      TaskStep cfg s a (u.sendNext cfg k task (task.remaining cfg)) k task task' := by
  have hku : u.tasks[k]? = some task := by rw [htasks, hk]
  generalize hrest : task.remaining cfg = rest
  cases rest with
  | nil => exact taskStep_applied htasks hk hwakes hrest _
  | cons nodeId rest =>
    unfold sendNext
    cases hls : (u.nodes task.node).leaderState with
    | none =>
      refine ⟨_, tasks_setPc hku _, .raises (Or.inr ?_)⟩
      rw [← hstays.leaderState, hls]
      rfl
    | some ls =>
      have htask := tasks_setPc (s := u.post task.node nodeId
        ((u.nodes task.node).appendEntriesMessage task.node
          ((u.nodes task.node).outgoing ls nodeId))) (t := task) hku
        (.sending ((u.nodes task.node).outgoing ls nodeId) u.rpcs.length rest)
      have hlength : u.rpcs.length = s.rpcs.length := congrArg List.length hrpcs
      refine ⟨_, htask, ?_⟩
      rw [hlength]
      refine .sends hwakes hrest (r := ⟨task.node, nodeId,
        (u.nodes task.node).appendEntriesMessage task.node
          ((u.nodes task.node).outgoing ls nodeId), .inFlight⟩) ?_
        ⟨rfl, rfl, rfl, hstays.currentTerm, rfl⟩
      show (u.rpcs ++ [_])[s.rpcs.length]? = _
      rw [← hlength]
      exact List.getElem?_concat_length

theorem taskStep_sendReturns {o : RaftNode.Outgoing N C} {j : ℕ} {rest : List N}
    {response : Option (Message N Response)} (hk : s.tasks[k]? = some task)
    (hpc : task.pc = .sending o j rest) (hwakes : a.Wakes k task.pc)
    (hans : ∀ message ∈ response, s.answerOf j = some message) :
    ∃ task', (s.sendReturns cfg k task o rest response).tasks[k]? = some task' ∧
      TaskStep cfg s a (s.sendReturns cfg k task o rest response) k task task' := by
  obtain rfl : task.remaining cfg = rest := by
    unfold Task.remaining
    rw [hpc]
  unfold sendReturns
  split
  · rename_i heq
    refine ⟨_, tasks_setPc hk _, .raises (Or.inr ?_)⟩
    unfold RaftNode.handleResponse at heq
    split at heq
    · cases heq
    split at heq
    · split at heq
      · cases heq
      · rw [Option.map_eq_none_iff.mp heq]
        rfl
    · split at heq
      · cases heq
      · rw [Option.map_eq_none_iff.mp heq]
        rfl
  · rename_i n heq
    rcases RaftNode.stays_handleResponse heq with ⟨hf, -⟩ | ⟨message, -, rfl, -, hlt, -⟩
    · cases hf
    · exact ⟨_, tasks_setPc (s := s.setNode task.node n) hk _,
        .stepsDown hpc hwakes (hans message rfl) hlt⟩
  · rename_i n heq
    rcases RaftNode.stays_handleResponse heq with ⟨-, hstays⟩ | ⟨message, hf, -⟩
    · exact taskStep_sendNext (u := s.setNode task.node n) rfl rfl
        (by rw [nodes_setNode_self]; exact hstays) hk hwakes
    · cases hf

theorem taskStep_cancelTask (hidle : a.beginsRound k = false)
    (hcause : (∃ i, a = .becameLeader i ∧ (s.nodes i).electionTask = .becomingLeader) ∨
      ∃ now, a = .crash task.node now ∨ a = .crashSaving task.node now) :
    TaskStep cfg s a s' k task (cancelTask task) := by
  unfold cancelTask
  split
  · exact .stays hidle
  · exact .stays hidle
  · exact .cancelled hcause

theorem taskStep_restart (hk : s.tasks[k]? = some task) (hidle : a.beginsRound k = false) (i : N)
    (stateFile : Option (PersistentState N C)) (now : ℚ)
    (ha : a = .crash i now ∨ a = .crashSaving i now) :
    ∃ task', (s.restart i stateFile now).tasks[k]? = some task' ∧
      TaskStep cfg s a (s.restart i stateFile now) k task task' := by
  refine ⟨if task.node = i then cancelTask task else task, ?_, ?_⟩
  · show (s.tasks.map _)[k]? = _
    rw [List.getElem?_map, hk]
    rfl
  · split
    · rename_i hnode
      subst hnode
      exact taskStep_cancelTask hidle (Or.inr ⟨now, ha⟩)
    · exact .stays hidle

theorem taskStep_step (h : s.step cfg a = some s') (hk : s.tasks[k]? = some task) :
    ∃ task', s'.tasks[k]? = some task' ∧ TaskStep cfg s a s' k task task' := by
  -- a step that runs another coroutine
  have other : ∀ {k' : ℕ}, a.beginsRound k = false → (k ≠ k' → s'.tasks[k]? = s.tasks[k]?) →
      k ≠ k' → ∃ task', s'.tasks[k]? = some task' ∧ TaskStep cfg s a s' k task task' :=
    fun hidle hsame hne => ⟨task, (hsame hne).trans hk, .stays hidle⟩
  cases stepped h with
  | electionTimeout => exact ⟨task, hk, .stays rfl⟩
  | electionEnds =>
    unfold countVotes
    split
    · exact ⟨task, hk, .stays rfl⟩
    · exact ⟨task, hk, .stays rfl⟩
  | @becameLeader i _ hbecoming =>
    unfold startHeartbeat
    cases (s.nodes i).heartbeatTask with
    | none => exact ⟨task, getElem?_append_of_some hk _, .stays rfl⟩
    | some k' =>
      obtain ⟨task', ht', hcase⟩ := tasks_cancelTask k' hk
      refine ⟨task', getElem?_append_of_some ht' _, ?_⟩
      rcases hcase with rfl | rfl
      · exact .stays rfl
      · exact taskStep_cancelTask rfl (Or.inl ⟨i, rfl, hbecoming⟩)
  | @propose i command =>
    have hlt := (List.getElem?_eq_some_iff.mp hk).1
    refine other rfl (fun hne => ?_) hlt.ne
    rw [tasks_sendAppendEntries_of_ne hne]
    exact List.getElem?_append_left hlt
  | @heartbeat k' i ht hs =>
    rcases eq_or_ne k k' with rfl | hne
    · obtain rfl := Option.some.inj (hk.symm.trans ht)
      unfold sendAppendEntries
      split
      · rename_i hcause
        refine ⟨_, tasks_setPc hk _, .ends rfl (Or.inr ⟨rfl, ?_⟩) (Or.inr (Or.inl rfl))⟩
        refine hcause.imp id fun hnone => ?_
        rw [Option.isNone_iff_eq_none.mp hnone]
        rfl
      · exact taskStep_sendNext rfl rfl
          (RaftNode.Stays.refl _) hk rfl
    · exact other (decide_eq_false hne.symm) (fun hne => tasks_sendAppendEntries_of_ne hne _) hne
  | @heartbeatEnds k' i ht hs =>
    rcases eq_or_ne k k' with rfl | hne
    · obtain rfl := Option.some.inj (hk.symm.trans ht)
      exact ⟨_, tasks_setPc hk _, .ends rfl (Or.inr ⟨rfl, Or.inl hs⟩)
        (Or.inr (Or.inr ⟨rfl, hs⟩))⟩
    · exact other (decide_eq_false hne.symm) (fun hne => tasks_setPc_of_ne hne _ _) hne
  | @reply k' j i kind o rest response ht hans =>
    rcases eq_or_ne k k' with rfl | hne
    · obtain rfl := Option.some.inj (hk.symm.trans ht)
      exact taskStep_sendReturns hk rfl (Or.inl rfl) fun message hmessage =>
        Option.some.inj hmessage ▸ hans
    · exact other rfl (fun hne => tasks_sendReturns_of_ne hne _ _ _ _) hne
  | @noReply k' j i kind o rest ht =>
    rcases eq_or_ne k k' with rfl | hne
    · obtain rfl := Option.some.inj (hk.symm.trans ht)
      exact taskStep_sendReturns hk rfl (Or.inr rfl) fun message hmessage => by cases hmessage
    · exact other rfl (fun hne => tasks_sendReturns_of_ne hne _ _ _ _) hne
  | @resumeSending k' i kind rest ht =>
    rcases eq_or_ne k k' with rfl | hne
    · obtain rfl := Option.some.inj (hk.symm.trans ht)
      exact taskStep_sendNext rfl rfl
        (RaftNode.Stays.refl _) hk rfl
    · exact other rfl (fun hne => tasks_sendNext_of_ne hne _ _) hne
  | @resumeApplying k' i kind ht =>
    rcases eq_or_ne k k' with rfl | hne
    · obtain rfl := Option.some.inj (hk.symm.trans ht)
      exact taskStep_applied rfl hk rfl rfl _
    · exact other rfl (fun hne => tasks_setPc_of_ne (s := s.setNode i _) hne _ _) hne
  | @raise k' i kind ht =>
    rcases eq_or_ne k k' with rfl | hne
    · obtain rfl := Option.some.inj (hk.symm.trans ht)
      exact ⟨_, tasks_setPc hk _, .raises (Or.inl rfl)⟩
    · exact other rfl (fun hne => tasks_setPc_of_ne hne _ _) hne
  | @deliver j now r =>
    refine ⟨task, ?_, .stays rfl⟩
    unfold deliver handle
    split
    · exact hk
    · split <;> exact hk
  | resumeHandling =>
    refine ⟨task, ?_, .stays rfl⟩
    unfold handle
    split <;> exact hk
  | resumeHandlerApplying => exact ⟨task, hk, .stays rfl⟩
  | raiseHandler => exact ⟨task, hk, .stays rfl⟩
  | crash => exact taskStep_restart hk rfl _ _ _ (Or.inl rfl)
  | crashSaving => exact taskStep_restart hk rfl _ _ _ (Or.inr rfl)

theorem kind_of_beginsRound (h : s.step cfg a = some s') (hk : s.tasks[k]? = some task)
    (hbegins : a.beginsRound k = true) : task.kind = .heartbeat := by
  cases a with
  | heartbeat k' =>
    obtain rfl : k' = k := of_decide_eq_true hbegins
    cases stepped h with
    | heartbeat ht =>
      rw [Option.some.inj (hk.symm.trans ht)]
    | heartbeatEnds ht =>
      rw [Option.some.inj (hk.symm.trans ht)]
  | _ => cases hbegins

/-! ## New coroutines -/

theorem leader_of_propose {i : N} {command : C} (h : s.step cfg (.propose i command) = some s') :
    (s.nodes i).state = .leader := by
  cases stepped h with
  | propose hi hs => exact hs

/-- Where a `propose` is after its first step. -/
theorem tasks_of_propose {i : N} {command : C} (h : s.step cfg (.propose i command) = some s')
    (hls : (s.nodes i).leaderState.isSome = true) :
    ∃ pc, s'.tasks = s.tasks ++ [⟨i, .propose, pc⟩] ∧
      (cfg.getOtherNodes i = [] ∧ (pc = .applying ∨ pc = .returned) ∨
        ∃ o nodeId rest r, cfg.getOtherNodes i = nodeId :: rest ∧
          pc = .sending o s.rpcs.length rest ∧ s'.rpcs[s.rpcs.length]? = some r ∧
          r.dst = nodeId) := by
  cases stepped h with
  | propose hi hs =>
    let u := (s.setNode i ((s.nodes i).appendCommand command)).spawn ⟨i, .propose, .looping⟩
    have hnode : u.nodes i = (s.nodes i).appendCommand command := nodes_setNode_self s i _
    have hset : ∀ pc, u.tasks.set s.tasks.length ⟨i, .propose, pc⟩ =
        s.tasks ++ [⟨i, .propose, pc⟩] := fun pc => set_concat_length s.tasks _ _
    show ∃ pc, (u.sendAppendEntries cfg s.tasks.length ⟨i, .propose, .looping⟩).tasks = _ ∧ _
    obtain ⟨ls, hsome⟩ := Option.isSome_iff_exists.mp hls
    have hsome : (u.nodes i).leaderState = some ls := by rw [hnode]; exact hsome
    unfold sendAppendEntries
    rw [if_neg]
    · cases hothers : cfg.getOtherNodes i with
      | nil =>
        refine ⟨_, hset _, Or.inl ⟨rfl, ?_⟩⟩
        split
        · exact Or.inl rfl
        · exact Or.inr rfl
      | cons nodeId rest =>
        unfold sendNext
        rw [hsome]
        exact ⟨_, hset _, Or.inr ⟨_, nodeId, rest, _, rfl, rfl, List.getElem?_concat_length, rfl⟩⟩
    · rintro (hnot | hnone)
      · rw [hnode] at hnot
        exact hnot hs
      · rw [hsome] at hnone
        cases hnone

/-- Only calls of `propose` and new leaders start coroutines. -/
theorem new_task (h : s.step cfg a = some s') {task' : Task N C} (hk : s.tasks[k]? = none)
    (hk' : s'.tasks[k]? = some task') (hkind : task'.kind = .propose) :
    ∃ i command, a = .propose i command := by
  have old : s'.tasks.length = s.tasks.length → ∃ i command, a = .propose i command := by
    intro hlength
    have hlt := (List.getElem?_eq_some_iff.mp hk').1
    have hge := List.getElem?_eq_none_iff.mp hk
    omega
  have set : ∀ {k' : ℕ} {task₀ : Task N C} {P : Pc N C → Prop},
      (∃ pc, s'.tasks = s.tasks.set k' { task₀ with pc := pc } ∧ P pc) →
        ∃ i command, a = .propose i command := by
    rintro k' task₀ P ⟨pc, htasks, -⟩
    exact old (by rw [htasks, List.length_set])
  cases stepped h with
  | electionTimeout => exact old rfl
  | electionEnds =>
    refine old ?_
    unfold countVotes
    split <;> rfl
  | @becameLeader i =>
    have hlength : ∀ tasks : List (Task N C), tasks.length = s.tasks.length →
        (tasks ++ [⟨i, .heartbeat, .looping⟩])[k]? = some task' → False := by
      intro tasks hlength hk'
      rcases getElem?_concat_cases hk' with hold | ⟨-, rfl⟩
      · have hlt := (List.getElem?_eq_some_iff.mp hold).1
        have hge := List.getElem?_eq_none_iff.mp hk
        omega
      · cases hkind
    refine (hlength _ ?_ hk').elim
    split
    · exact List.length_modify ..
    · rfl
  | @propose i command => exact ⟨i, command, rfl⟩
  | heartbeat => exact set (tasks_sendAppendEntries cfg s _ _)
  | heartbeatEnds => exact old (List.length_set ..)
  | reply => exact set (tasks_sendReturns cfg s _ _ _ _ _)
  | noReply => exact set (tasks_sendReturns cfg s _ _ _ _ _)
  | resumeSending => exact set (tasks_sendNext cfg s _ _ _)
  | resumeApplying => exact old (List.length_set ..)
  | raise => exact old (List.length_set ..)
  | deliver =>
    refine old ?_
    unfold deliver handle
    split
    · rfl
    · split <;> rfl
  | resumeHandling =>
    refine old ?_
    unfold handle
    split <;> rfl
  | resumeHandlerApplying => exact old rfl
  | raiseHandler => exact old rfl
  | crash => exact old (List.length_map ..)
  | crashSaving => exact old (List.length_map ..)

end Cluster

/-! ## The clock of a coroutine -/

namespace Clock

variable {s s' : Cluster N C} {begins : ℕ → Bool} {t : ℚ} {k : ℕ} {task task' : Task N C}

theorem sentAt_after (c : Clock) {j : ℕ} {r : Rpc N C} (hj : s.rpcs[j]? = some r) :
    (c.after s s' begins t).sentAt j = c.sentAt j :=
  if_pos (List.getElem?_eq_some_iff.mp hj).1

theorem sentAt_after_length (c : Clock) : (c.after s s' begins t).sentAt s.rpcs.length = t :=
  if_neg (Nat.lt_irrefl _)

theorem since_after (c : Clock) (hk : s.tasks[k]? = some task) (hk' : s'.tasks[k]? = some task') :
    (c.after s s' begins t).since k =
      if begins k || !task.pc.isLooping && task'.pc.isLooping then t else c.since k := by
  simp only [after, hk, hk', Option.any_some]

theorem since_after_new (c : Clock) (hk : s.tasks[k]? = none) :
    (c.after s s' begins t).since k = t := by
  simp only [after, hk]

theorem since_after_of_idle (c : Clock) (hk : s.tasks[k]? = some task)
    (hk' : s'.tasks[k]? = some task) (hidle : begins k = false) :
    (c.after s s' begins t).since k = c.since k := by
  rw [since_after c hk hk', hidle]
  cases task.pc.isLooping <;> rfl

end Clock

end Pynchronize
