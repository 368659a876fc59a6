import Mathlib.Tactic.Linarith
import Pynchronize.Lib.Records
import Pynchronize.Base.Heartbeats

/-!
# Who is suspected

When loops, sends and handlers are late by less than two intervals together, a
node that runs is never suspected by another one (`never_suspected`), and a node
that has stopped is dead for the others after six intervals and what they are
late (`dead_of_stopped`). One node that answers no request is enough to undo
the first: the sends to it end by their timeout only, so each of the others waits
for five seconds between two broadcasts, and in between all of them are dead for
one another (`dead_between_heartbeats`).
-/

namespace Pynchronize

open Lib FailureDetector

/-- How much later than planned things may happen: loops wake up `oversleep` after their time, a
    request is handled `delivery` after it was sent, and a broadcast takes `broadcast`. -/
structure Timing where
  oversleep : ℚ
  delivery : ℚ
  broadcast : ℚ
  oversleep_nonneg : 0 ≤ oversleep
  delivery_nonneg : 0 ≤ delivery
  broadcast_nonneg : 0 ≤ broadcast

/-- `ClientTimeout(total=5)`. -/
def requestTimeout : ℚ := 5

def HeartbeatLoop.due (tm : Timing) : HeartbeatLoop → ℚ
  | .sleeping wake => wake + tm.oversleep
  | .broadcasting since _ => since + tm.broadcast

namespace BaseCluster

/-- The request that an action hands to its handler. -/
def delivering (s : BaseCluster) : BaseAction → Option Heartbeat
  | .deliver k => s.heartbeats[k]?
  | _ => none

/-- The request of the send that an action ends. -/
def ending (s : BaseCluster) : BaseAction → Option Heartbeat
  | .sendEnds _ k => s.heartbeats[k]?
  | _ => none

/-- The nodes in `live` send their heartbeats in time, and none is lost between two of them. -/
def Regular (tm : Timing) (live : List String) (s : BaseCluster) (a : ℚ × BaseAction) : Prop :=
  (∀ i ∈ live, (s.nodes i).running = true → a.1 ≤ (s.nodes i).heartbeatLoop.due tm) ∧
    ∀ h ∈ s.heartbeats, h.handled = false → h.sender ∈ live → h.target ∈ live →
      (s.nodes h.sender).running = true → (s.nodes h.target).running = true →
        a.1 ≤ h.sentAt + tm.delivery

/-- The nodes in `live` check in time, and no heartbeat is handled late. -/
def Prompt (tm : Timing) (live : List String) (s : BaseCluster) (a : ℚ × BaseAction) : Prop :=
  (∀ i ∈ live, (s.nodes i).running = true → a.1 ≤ (s.nodes i).checkLoop + tm.oversleep) ∧
    ∀ h ∈ s.delivering a.2, a.1 ≤ h.sentAt + tm.delivery

/-- Node `h` takes requests and answers none, so a send to it ends by the timeout. -/
def Hangs (h : String) (s : BaseCluster) (a : ℚ × BaseAction) : Prop :=
  ∀ heartbeat ∈ s.ending a.2, heartbeat.target = h → heartbeat.sentAt + requestTimeout ≤ a.1

instance (tm : Timing) (live : List String) (s : BaseCluster) (a : ℚ × BaseAction) :
    Decidable (Regular tm live s a) :=
  instDecidableAnd

instance (tm : Timing) (live : List String) (s : BaseCluster) (a : ℚ × BaseAction) :
    Decidable (Prompt tm live s a) :=
  instDecidableAnd

instance (h : String) (s : BaseCluster) (a : ℚ × BaseAction) : Decidable (Hangs h s a) :=
  Option.decidableForallMem _

end BaseCluster

/-! ## What a node knows of another -/

namespace BaseNode

variable {cfg : BaseConfig}

/-- The detector has the configured interval and the default thresholds, and knows of node `i` its
    silence. -/
structure Hears (cfg : BaseConfig) (d : FailureDetector) (i : String) (silence : Silence) :
    Prop where
  interval : d.heartbeatInterval = cfg.heartbeatInterval
  suspect : d.suspectThreshold = 3
  dead : d.deadThreshold = 5
  state : d.nodes.get? i = some (silence.state d)

variable {d : FailureDetector} {i : String} {silence : Silence}

theorem Hears.status (h : Hears cfg d i silence) :
    d.getNodeStatus i = some (statusOf 3 5 (silence.longest cfg.heartbeatInterval)) := by
  unfold getNodeStatus
  rw [h.state, ← h.suspect, ← h.dead, ← h.interval]
  rfl

theorem Hears.fresh (h : Hears cfg d i silence) (now : ℚ) :
    Silence.state d ⟨now, []⟩ = ⟨.alive, now, 0⟩ :=
  state_fresh (by rw [h.suspect]; decide) (by rw [h.suspect, h.dead]; decide) now

/-- The nodes are registered one after another. -/
theorem registerNodes_spec (now : ℚ) (l : List String) (d : FailureDetector) :
    let d' := l.foldl (fun d n => d.registerNode now n) d
    d' = { d with nodes := d'.nodes } ∧ ∀ i ≠ d.nodeId,
      (d.nodes.get? i = some { lastHeartbeat := now } ∨ i ∈ l ∧ d.nodes.get? i = none) →
        d'.nodes.get? i = some { lastHeartbeat := now } := by
  induction l generalizing d with
  | nil => exact ⟨rfl, fun i _ h => h.resolve_right fun h => List.not_mem_nil h.1⟩
  | cons n rest ih =>
    have hfirst : ∃ nodes, d.registerNode now n = { d with nodes := nodes } := by
      unfold registerNode
      split <;> exact ⟨_, rfl⟩
    obtain ⟨nodes, hnodes⟩ := hfirst
    obtain ⟨hsame, hget⟩ := ih (d.registerNode now n)
    refine ⟨?_, fun i hi h => hget i (by rw [hnodes]; exact hi) ?_⟩
    · rw [List.foldl_cons]
      refine hsame.trans ?_
      rw [hnodes]
    unfold registerNode
    split
    · rename_i hnew
      rw [Dict.get?_set]
      split
      · exact Or.inl rfl
      · rename_i hne
        exact h.imp_right fun h => ⟨(List.mem_cons.mp h.1).resolve_left (Ne.symm hne), h.2⟩
    · rename_i hold
      refine h.imp_right fun h => ⟨(List.mem_cons.mp h.1).resolve_left ?_, h.2⟩
      rintro rfl
      refine hold ⟨hi, fun hmem => ?_⟩
      obtain ⟨v, hv⟩ := (Dict.mem_keys_iff _ _).mp hmem
      rw [h.2] at hv
      cases hv

theorem hears_start {j : String} (hi : i ∈ cfg.getOtherNodes j) (now : ℚ) :
    Hears cfg (start cfg j now).failureDetector i ⟨now, []⟩ := by
  have hne : i ≠ j := of_decide_eq_true (List.mem_filter.mp hi).2
  obtain ⟨hsame, hget⟩ := registerNodes_spec now (cfg.getOtherNodes j)
    { nodeId := j, heartbeatInterval := cfg.heartbeatInterval }
  have hstate := hget i hne (Or.inr ⟨hi, rfl⟩)
  have hd : (start cfg j now).failureDetector = (cfg.getOtherNodes j).foldl
      (fun d n => d.registerNode now n)
      { nodeId := j, heartbeatInterval := cfg.heartbeatInterval } := rfl
  rw [hd]
  refine ⟨by rw [hsame], by rw [hsame], by rw [hsame], hstate.trans ?_⟩
  rw [hsame, state_of_same]
  rfl

theorem Hears.heartbeat (h : Hears cfg d i silence) (now : ℚ) (sender : String) :
    Hears cfg (d.recordHeartbeat now sender).1 i
      (if sender = i then ⟨now, []⟩ else silence) := by
  cases hget : d.nodes.get? sender with
  | none =>
    have hne : sender ≠ i := by
      rintro rfl
      rw [h.state] at hget
      cases hget
    rw [recordHeartbeat_unknown hget, if_neg hne]
    exact h
  | some old =>
    have hs := recordHeartbeat_known hget now
    have hstate := hs.get? i
    rw [hs.result] at hstate ⊢
    refine ⟨h.interval, h.suspect, h.dead, hstate.trans ?_⟩
    rw [state_of_same]
    split
    · rw [h.fresh]
    · exact h.state

/-- A heartbeat is reported when the node was not alive. -/
theorem Hears.heartbeat_changes (h : Hears cfg d i silence) (now : ℚ) (sender : String) :
    ∀ change ∈ (d.recordHeartbeat now sender).2.toList, change.nodeId = i →
      3 ≤ silence.longest cfg.heartbeatInterval := by
  intro change hchange hnode
  by_contra hless
  obtain ⟨-, hsender⟩ := mem_recordHeartbeat hchange
  rw [← hsender, hnode, (recordHeartbeat_known h.state now).change, if_pos] at hchange
  · exact absurd hchange List.not_mem_nil
  · show statusOf d.suspectThreshold d.deadThreshold (silence.longest d.heartbeatInterval) = _
    rw [h.suspect, h.dead, h.interval]
    unfold statusOf
    rw [if_neg (by omega), if_neg (by omega)]

theorem Hears.check (h : Hears cfg d i silence) (hinterval : 0 < cfg.heartbeatInterval) (now : ℚ)
    {r : FailureDetector × List StatusChange} (hr : d.checkNodes now = some r) :
    Hears cfg r.1 i { silence with checks := silence.checks ++ [now] } ∧ Reports d r.1 r.2 := by
  obtain ⟨r', hr', hchecks⟩ := checkRounds_checks (by rw [h.interval]; exact hinterval.ne') now
    d.nodes.keys_nodup
  obtain rfl : r' = r := Option.some.inj (hr'.symm.trans hr)
  have hget := hchecks.get? i
  rw [if_pos (Dict.mem_keys_of_get? h.state), h.state, Option.map_some, checkedState_state] at hget
  refine ⟨⟨?_, ?_, ?_, hget.trans ?_⟩, hchecks.reports⟩
  · rw [hchecks.same]
    exact h.interval
  · rw [hchecks.same]
    exact h.suspect
  · rw [hchecks.same]
    exact h.dead
  · rw [hchecks.same]
    rfl

/-- The status in the last report about a node, which is registered as alive. -/
def lastReported (changes : List StatusChange) (i : String) : NodeStatus :=
  (changes.filter fun change => change.nodeId = i).getLast?.elim .alive StatusChange.newStatus

/-- Who reads the reports knows the status. -/
theorem lastReported_append {d' : FailureDetector} {changes changes' : List StatusChange}
    (hreports : Reports d d' changes') (h : d.getNodeStatus i = some (lastReported changes i))
    {status : NodeStatus} (h' : d'.getNodeStatus i = some status) :
    lastReported (changes ++ changes') i = status := by
  unfold lastReported
  rw [List.filter_append, hreports i, h, h']
  by_cases hsame : lastReported changes i = status
  · subst hsame
    rw [changed_self, List.append_nil]
    rfl
  · have hone : changed i (some (lastReported changes i)) (some status) =
        [⟨i, lastReported changes i, status⟩] := if_neg hsame
    rw [hone, List.getLast?_concat]
    rfl

theorem exists_of_lastReported {changes : List StatusChange} {status : NodeStatus}
    (h : lastReported changes i = status) (hne : status ≠ .alive) :
    ∃ change, (changes.filter fun change => change.nodeId = i).getLast? = some change ∧
      change.newStatus = status := by
  unfold lastReported at h
  cases hlast : (changes.filter fun change => change.nodeId = i).getLast? with
  | none =>
    rw [hlast] at h
    exact absurd h.symm hne
  | some change =>
    rw [hlast] at h
    exact ⟨change, rfl, h⟩

/-- What else a running node keeps to, at time `now`: `_check_loop` sleeps for an interval, a
    round that comes five intervals after the last heartbeat finds the node dead, and what was
    reported last is the status. -/
structure Watching (cfg : BaseConfig) (n : BaseNode) (now : ℚ) (i : String) (silence : Silence) :
    Prop where
  hears : Hears cfg n.failureDetector i silence
  since : silence.since ≤ now
  round : n.checkLoop ≤ now + cfg.heartbeatInterval
  dead : silence.since + 5 * cfg.heartbeatInterval ≤ n.checkLoop - cfg.heartbeatInterval →
    5 ≤ silence.longest cfg.heartbeatInterval
  reported : n.failureDetector.getNodeStatus i = some (lastReported n.changes i)

variable {n n' : BaseNode} {now t : ℚ}

theorem watching_start {j : String} (hi : i ∈ cfg.getOtherNodes j)
    (hinterval : 0 < cfg.heartbeatInterval) {started : ℚ} (h : started ≤ now) :
    Watching cfg (start cfg j started) now i ⟨started, []⟩ where
  hears := hears_start hi started
  since := h
  round := add_le_add_left h _
  dead hlong := by
    have hround : started + 5 * cfg.heartbeatInterval ≤
      started + cfg.heartbeatInterval - cfg.heartbeatInterval := hlong
    linarith
  reported := (hears_start hi started).status

theorem Watching.later (h : Watching cfg n now i silence) (ht : now ≤ t)
    (hdetector : n'.failureDetector = n.failureDetector) (hround : n'.checkLoop = n.checkLoop)
    (hchanges : n'.changes = n.changes) :
    Watching cfg n' t i silence where
  hears := by rw [hdetector]; exact h.hears
  since := h.since.trans ht
  round := by rw [hround]; exact h.round.trans (add_le_add_left ht _)
  dead := by rw [hround]; exact h.dead
  reported := by rw [hdetector, hchanges]; exact h.reported

theorem Watching.heartbeat (h : Watching cfg n now i silence)
    (hinterval : 0 < cfg.heartbeatInterval) (ht : now ≤ t) (sender : String) :
    Watching cfg (n.handleHeartbeat t sender) t i
      (if sender = i then ⟨t, []⟩ else silence) := by
  have hround : (n.handleHeartbeat t sender).checkLoop = n.checkLoop := rfl
  have hhears : Hears cfg (n.handleHeartbeat t sender).failureDetector i
      (if sender = i then ⟨t, []⟩ else silence) := h.hears.heartbeat t sender
  have hreported : (n.handleHeartbeat t sender).failureDetector.getNodeStatus i =
      some (lastReported (n.handleHeartbeat t sender).changes i) := by
    have hreports := reports_recordHeartbeat n.failureDetector t sender
    exact hhears.status.trans
      (congrArg some (lastReported_append hreports h.reported hhears.status).symm)
  split
  · rename_i hsender
    rw [if_pos hsender] at hhears
    refine ⟨hhears, le_rfl, by rw [hround]; linarith [h.round], fun hlong => ?_, hreported⟩
    have := h.round
    rw [hround] at hlong
    dsimp only at hlong
    linarith
  · rename_i hsender
    rw [if_neg hsender] at hhears
    exact ⟨hhears, h.since.trans ht, by rw [hround]; linarith [h.round], h.dead, hreported⟩

theorem Watching.check (h : Watching cfg n now i silence) (hinterval : 0 < cfg.heartbeatInterval)
    (ht : now ≤ t) (hn : n.checkNodes cfg t = some n') :
    Watching cfg n' t i { silence with checks := silence.checks ++ [t] } ∧
      n'.heartbeatLoop = n.heartbeatLoop ∧ n'.checkLoop = t + cfg.heartbeatInterval ∧
      ∃ changes, n'.changes = n.changes ++ changes ∧
        Reports n.failureDetector n'.failureDetector changes := by
  obtain ⟨r, hr, rfl⟩ := Option.map_eq_some_iff.mp hn
  obtain ⟨hhears, hreports⟩ := h.hears.check hinterval t hr
  have hreported : r.1.getNodeStatus i = some (lastReported (n.changes ++ r.2) i) :=
    hhears.status.trans
      (congrArg some (lastReported_append hreports h.reported hhears.status).symm)
  refine ⟨⟨hhears, h.since.trans ht, le_rfl, fun hlong => ?_, hreported⟩, rfl, rfl, r.2, rfl,
    hreports⟩
  have hround : silence.since + 5 * cfg.heartbeatInterval ≤ t := by
    dsimp only at hlong
    linarith
  rw [longest_append]
  refine le_max_of_le_right (Int.le_floor.mpr ?_)
  rw [le_div_iff₀ hinterval]
  push_cast
  linarith

end BaseNode

namespace BaseCluster

open BaseNode

variable {cfg : BaseConfig} {tm : Timing} {live : List String} {s s' : BaseCluster} {t : ℚ}
  {a : BaseAction} {i j : String} {silence : Silence}

/-- The silence of `i` for node `j` after an action. -/
def heard (s : BaseCluster) (j i : String) (t : ℚ) (silence : Silence) : BaseAction → Silence
  | .deliver k =>
    match s.heartbeats[k]? with
    | some h => if h.target = j ∧ h.sender = i then ⟨t, []⟩ else silence
    | none => silence
  | .check k => if k = j then { silence with checks := silence.checks ++ [t] } else silence
  | _ => silence

theorem heard_deliver {k : ℕ} {hb : Heartbeat} (h : s.heartbeats[k]? = some hb) (j i : String)
    (t : ℚ) (silence : Silence) : s.heard j i t silence (.deliver k) =
      if hb.target = j ∧ hb.sender = i then ⟨t, []⟩ else silence := by
  simp only [heard, h]

theorem since_heard_of_not (h : ¬∃ k hb, a = .deliver k ∧ s.heartbeats[k]? = some hb ∧
    hb.sender = i ∧ hb.target = j) : (s.heard j i t silence a).since = silence.since := by
  cases a with
  | deliver k =>
    cases hk : s.heartbeats[k]? with
    | none => simp only [heard, hk]
    | some hb => rw [heard_deliver hk, if_neg fun hpair => h ⟨k, hb, rfl, hk, hpair.2, hpair.1⟩]
  | check k =>
    show (if k = j then { silence with checks := silence.checks ++ [t] } else silence).since = _
    split <;> rfl
  | _ => rfl

/-- What a change of one node leaves alone there is the same in all of them. -/
theorem update_of_eq {α : Type*} (f : BaseNode → α) {nodes nodes' : String → BaseNode}
    {n : BaseNode} (hnodes : nodes' = Function.update nodes i n) (h : f n = f (nodes i))
    (j : String) : f (nodes' j) = f (nodes j) := by
  rw [hnodes]
  by_cases hj : j = i
  · subst hj
    rw [Function.update_self]
    exact h
  · rw [Function.update_of_ne hj]

theorem running_of_step (h : s.step cfg (t, a) = some s') (j : String)
    (hj : (s'.nodes j).running = true) : (s.nodes j).running = true := by
  obtain ⟨-, s₁, hs, rfl⟩ := step_cases h
  have hsame : (s₁.nodes j).running = (s.nodes j).running ∨ (s₁.nodes j).running = false := by
    cases hs with
    | wake _ _ _ _ => exact Or.inl (update_of_eq BaseNode.running (by rfl) (by rfl) j)
    | sendEnds _ _ _ => exact Or.inl (update_of_eq BaseNode.running (by rfl) (by rfl) j)
    | broadcastEnds _ _ => exact Or.inl (update_of_eq BaseNode.running (by rfl) (by rfl) j)
    | deliver _ _ _ => exact Or.inl (update_of_eq BaseNode.running (by rfl) (by rfl) j)
    | check _ _ _ hn =>
      obtain ⟨r, -, rfl⟩ := Option.map_eq_some_iff.mp hn
      exact Or.inl (update_of_eq BaseNode.running (by rfl) (by rfl) j)
    | @stop k =>
      by_cases hk : j = k
      · subst hk
        exact Or.inr (congrArg BaseNode.running (nodes_setNode_self s j _))
      · exact Or.inl (congrArg BaseNode.running (nodes_setNode_of_ne s hk _))
  rcases hsame with hsame | hstopped
  · exact hsame.symm.trans hj
  · exact absurd (hj.symm.trans hstopped) (by decide)

/-- The part of a node that its loops and sends leave alone. -/
def watched (n : BaseNode) : FailureDetector × ℚ × List StatusChange :=
  (n.failureDetector, n.checkLoop, n.changes)

/-- Nothing but a heartbeat and a check touches the detector. -/
theorem watched_of_step (h : s.step cfg (t, a) = some s') (j : String) :
    (∃ k hb, a = .deliver k ∧ s.heartbeats[k]? = some hb ∧ hb.handled = false ∧
        hb.target = j ∧ s'.nodes j = (s.nodes j).handleHeartbeat t hb.sender) ∨
      (a = .check j ∧ (s.nodes j).checkNodes cfg t = some (s'.nodes j)) ∨
      (watched (s'.nodes j) = watched (s.nodes j) ∧
        ∀ i silence, s.heard j i t silence a = silence) := by
  obtain ⟨-, s₁, hs, rfl⟩ := step_cases h
  cases hs with
  | wake _ _ _ _ =>
    exact Or.inr (Or.inr ⟨update_of_eq watched (by rfl) (by rfl) j, fun _ _ => rfl⟩)
  | sendEnds _ _ _ =>
    exact Or.inr (Or.inr ⟨update_of_eq watched (by rfl) (by rfl) j, fun _ _ => rfl⟩)
  | broadcastEnds _ _ =>
    exact Or.inr (Or.inr ⟨update_of_eq watched (by rfl) (by rfl) j, fun _ _ => rfl⟩)
  | @deliver k hb hsent hnew _ =>
    by_cases htarget : hb.target = j
    · subst htarget
      exact Or.inl ⟨k, hb, rfl, hsent, hnew, rfl, nodes_setNode_self s _ _⟩
    · have hnode : (s.deliver k hb t).nodes j = s.nodes j :=
        nodes_setNode_of_ne s (Ne.symm htarget) _
      refine Or.inr (Or.inr ⟨congrArg watched hnode, fun i silence => ?_⟩)
      rw [heard_deliver hsent]
      exact if_neg fun h => htarget h.1
  | @check k n _ _ _ hn =>
    by_cases hk : k = j
    · subst hk
      exact Or.inr (Or.inl ⟨rfl, hn.trans (congrArg some (nodes_setNode_self s k n).symm)⟩)
    · have hnode : (s.setNode k n).nodes j = s.nodes j := nodes_setNode_of_ne s (Ne.symm hk) n
      exact Or.inr (Or.inr ⟨congrArg watched hnode, fun i silence => if_neg hk⟩)
  | stop => exact Or.inr (Or.inr ⟨update_of_eq watched (by rfl) (by rfl) j, fun _ _ => rfl⟩)

theorem now_of_step (h : s.step cfg (t, a) = some s') : s.now ≤ t ∧ s'.now = t := by
  obtain ⟨hle, s₁, -, rfl⟩ := step_cases h
  exact ⟨hle, rfl⟩

theorem watching_step (hinterval : 0 < cfg.heartbeatInterval)
    (h : Watching cfg (s.nodes j) s.now i silence) (hs : s.step cfg (t, a) = some s') :
    Watching cfg (s'.nodes j) s'.now i (s.heard j i t silence a) := by
  obtain ⟨hle, hnow⟩ := now_of_step hs
  rw [hnow]
  rcases watched_of_step hs j with ⟨k, hb, rfl, hsent, -, rfl, hnode⟩ | ⟨rfl, hn⟩ |
    ⟨hsame, hheard⟩
  · have hwatch := h.heartbeat hinterval hle hb.sender
    rw [hnode, heard_deliver hsent]
    simpa only [true_and] using hwatch
  · have hheard : s.heard j i t silence (.check j) =
        { silence with checks := silence.checks ++ [t] } := if_pos rfl
    rw [hheard]
    exact (h.check hinterval hle hn).1
  · rw [hheard]
    exact h.later hle (congrArg Prod.fst hsame) (congrArg (fun p => p.2.1) hsame)
      (congrArg (fun p => p.2.2) hsame)

/-! ## Loops and sends -/

/-- What a step does to the loop of node `i`. -/
theorem loop_of_step (h : s.step cfg (t, a) = some s') (i : String) :
    (a ≠ .wake i ∧ (s'.nodes i).heartbeatLoop = (s.nodes i).heartbeatLoop) ∨
      (∃ w, a = .wake i ∧ (s.nodes i).heartbeatLoop = .sleeping w ∧ w ≤ t ∧
        (s'.nodes i).heartbeatLoop = .broadcasting t
          (List.range' s.heartbeats.length (cfg.getOtherNodes i).length)) ∨
      (∃ k since sends, a = .sendEnds i k ∧ k ∈ sends ∧
        (s.nodes i).heartbeatLoop = .broadcasting since sends ∧
        (s'.nodes i).heartbeatLoop = .broadcasting since (sends.erase k)) ∨
      (∃ since, a = .broadcastEnds i ∧ (s.nodes i).heartbeatLoop = .broadcasting since [] ∧
        (s'.nodes i).heartbeatLoop = .sleeping (t + cfg.heartbeatInterval)) := by
  obtain ⟨-, s₁, hs, rfl⟩ := step_cases h
  cases hs with
  | @wake k w _ _ hloop hdue =>
    by_cases hk : i = k
    · subst hk
      exact Or.inr (Or.inl ⟨w, rfl, hloop, hdue,
        congrArg BaseNode.heartbeatLoop (nodes_setNode_self s i _)⟩)
    · exact Or.inl ⟨fun heq => hk (BaseAction.wake.inj heq).symm,
        congrArg BaseNode.heartbeatLoop (nodes_setNode_of_ne s hk _)⟩
  | @sendEnds k send since sends _ hloop hsend =>
    by_cases hk : i = k
    · subst hk
      exact Or.inr (Or.inr (Or.inl ⟨send, since, sends, rfl, hsend, hloop,
        congrArg BaseNode.heartbeatLoop (nodes_setNode_self s i _)⟩))
    · exact Or.inl ⟨nofun, congrArg BaseNode.heartbeatLoop (nodes_setNode_of_ne s hk _)⟩
  | @broadcastEnds k since _ hloop =>
    by_cases hk : i = k
    · subst hk
      exact Or.inr (Or.inr (Or.inr ⟨since, rfl, hloop,
        congrArg BaseNode.heartbeatLoop (nodes_setNode_self s i _)⟩))
    · exact Or.inl ⟨nofun, congrArg BaseNode.heartbeatLoop (nodes_setNode_of_ne s hk _)⟩
  | deliver _ _ _ => exact Or.inl ⟨nofun, update_of_eq BaseNode.heartbeatLoop (by rfl) (by rfl) i⟩
  | check _ _ _ hn =>
    obtain ⟨r, -, rfl⟩ := Option.map_eq_some_iff.mp hn
    exact Or.inl ⟨nofun, update_of_eq BaseNode.heartbeatLoop (by rfl) (by rfl) i⟩
  | stop => exact Or.inl ⟨nofun, update_of_eq BaseNode.heartbeatLoop (by rfl) (by rfl) i⟩

/-- Heartbeats are sent when a loop wakes up, and handled once. -/
theorem heartbeats_of_step (h : s.step cfg (t, a) = some s') :
    ((∀ i, a ≠ .wake i) ∧ s'.heartbeats = s.heartbeats) ∨
      (∃ i, a = .wake i ∧ i ∈ cfg.nodes ∧ (s.nodes i).running = true ∧ s'.heartbeats =
        s.heartbeats ++ (cfg.getOtherNodes i).map fun j => ⟨i, j, t, false⟩) ∨
      (∃ k hb, a = .deliver k ∧ s.heartbeats[k]? = some hb ∧
        s'.heartbeats = s.heartbeats.set k { hb with handled := true }) := by
  obtain ⟨-, s₁, hs, rfl⟩ := step_cases h
  cases hs with
  | @wake i _ hmem hrunning _ _ => exact Or.inr (Or.inl ⟨i, rfl, hmem, hrunning, rfl⟩)
  | sendEnds _ _ _ => exact Or.inl ⟨nofun, rfl⟩
  | broadcastEnds _ _ => exact Or.inl ⟨nofun, rfl⟩
  | @deliver k hb hsent _ _ => exact Or.inr (Or.inr ⟨k, hb, rfl, hsent, rfl⟩)
  | check _ _ _ _ => exact Or.inl ⟨nofun, rfl⟩
  | stop => exact Or.inl ⟨nofun, rfl⟩

theorem heartbeat_kept (h : s.step cfg (t, a) = some s') {k : ℕ} {hb : Heartbeat}
    (hk : s.heartbeats[k]? = some hb) (ha : a ≠ .deliver k) : s'.heartbeats[k]? = some hb := by
  rcases heartbeats_of_step h with ⟨-, hsame⟩ | ⟨i, -, -, -, hsame⟩ | ⟨k', hb', rfl, -, hsame⟩
  · rw [hsame]
    exact hk
  · rw [hsame]
    exact getElem?_append_of_some hk _
  · rw [hsame, List.getElem?_set_ne fun heq => ha (congrArg BaseAction.deliver heq)]
    exact hk

/-- Where a heartbeat comes from: it was there, handled or not, or a loop has just sent it. -/
theorem heartbeat_origin (h : s.step cfg (t, a) = some s') {k : ℕ} {hb : Heartbeat}
    (hk : s'.heartbeats[k]? = some hb) :
    (∃ handled, s.heartbeats[k]? = some { hb with handled := handled } ∧
        (handled ≠ hb.handled → a = .deliver k)) ∨
      ∃ i p j, a = .wake i ∧ i ∈ cfg.nodes ∧ (s.nodes i).running = true ∧
        k = s.heartbeats.length + p ∧ (cfg.getOtherNodes i)[p]? = some j ∧
        hb = ⟨i, j, t, false⟩ := by
  rcases heartbeats_of_step h with ⟨-, hsame⟩ | ⟨i, ha, hi, hrunning, hsent⟩ |
    ⟨k', hb', ha, hk', hset⟩
  · rw [hsame] at hk
    exact Or.inl ⟨hb.handled, hk, fun hne => absurd rfl hne⟩
  · rw [hsent] at hk
    rcases Nat.lt_or_ge k s.heartbeats.length with hold | hnew
    · rw [List.getElem?_append_left hold] at hk
      exact Or.inl ⟨hb.handled, hk, fun hne => absurd rfl hne⟩
    · rw [List.getElem?_append_right hnew, List.getElem?_map] at hk
      obtain ⟨j, hj, rfl⟩ := Option.map_eq_some_iff.mp hk
      exact Or.inr ⟨i, k - s.heartbeats.length, j, ha, hi, hrunning, by omega, hj, rfl⟩
  · rw [hset] at hk
    rcases getElem?_set_cases hk with ⟨rfl, rfl⟩ | ⟨-, hk⟩
    · exact Or.inl ⟨hb'.handled, hk', fun _ => ha⟩
    · exact Or.inl ⟨hb.handled, hk, fun hne => absurd rfl hne⟩

/-- Heartbeats go from nodes of the cluster to others, and none comes from the future. -/
def Sent (cfg : BaseConfig) (s : BaseCluster) : Prop :=
  ∀ (k : ℕ) (hb : Heartbeat), s.heartbeats[k]? = some hb →
    hb.sender ∈ cfg.nodes ∧ hb.target ∈ cfg.getOtherNodes hb.sender ∧ hb.sentAt ≤ s.now

theorem sent_step (h : Sent cfg s) (hs : s.step cfg (t, a) = some s') : Sent cfg s' := by
  obtain ⟨hle, hnow⟩ := now_of_step hs
  intro k hb hk
  rcases heartbeat_origin hs hk with ⟨handled, hold, -⟩ | ⟨i, p, j, -, hi, -, -, hj, rfl⟩
  · obtain ⟨hsender, htarget, hsentAt⟩ := h k _ hold
    exact ⟨hsender, htarget, by rw [hnow]; exact hsentAt.trans hle⟩
  · exact ⟨hi, List.mem_of_getElem? hj, hnow.ge⟩

theorem sent_boot (start : String → ℚ) (now : ℚ) : Sent cfg (boot cfg start now) :=
  fun _ _ hk => by cases hk

theorem deliver_of_step {k : ℕ} (h : s.step cfg (t, .deliver k) = some s') {hb : Heartbeat}
    (hk : s.heartbeats[k]? = some hb) :
    hb.handled = false ∧ (s.nodes hb.target).running = true ∧
      s'.heartbeats[k]? = some { hb with handled := true } ∧
      s'.nodes hb.target = (s.nodes hb.target).handleHeartbeat t hb.sender := by
  obtain ⟨-, s₁, hs, rfl⟩ := step_cases h
  cases hs with
  | deliver hsent hnew hrunning =>
    obtain rfl := Option.some.inj (hk.symm.trans hsent)
    exact ⟨hnew, hrunning, getElem?_set_of_some hk _, nodes_setNode_self s _ _⟩

/-! ## Nodes that run -/

/-- Why a heartbeat of `i` comes to `j` in time when the last one came at `since`: it is on its
    way, or the loop of `i` is about to send it. -/
inductive Expected (cfg : BaseConfig) (tm : Timing) (s : BaseCluster) (i j : String) (since : ℚ) :
    Prop
  | sent {k : ℕ} {hb : Heartbeat} (entry : s.heartbeats[k]? = some hb) (sender : hb.sender = i)
      (target : hb.target = j) (new : hb.handled = false)
      (soon : hb.sentAt ≤ since + cfg.heartbeatInterval + tm.oversleep + tm.broadcast)
  | sleeping {w} (loop : (s.nodes i).heartbeatLoop = .sleeping w)
      (soon : w ≤ since + tm.broadcast + cfg.heartbeatInterval)
  | broadcasting {b sends} (loop : (s.nodes i).heartbeatLoop = .broadcasting b sends)
      (soon : b ≤ since)

/-- A loop sleeps for an interval at most. -/
def Sending (cfg : BaseConfig) (n : BaseNode) (now : ℚ) : Prop :=
  match n.heartbeatLoop with
  | .sleeping wake => wake ≤ now + cfg.heartbeatInterval
  | .broadcasting since _ => since ≤ now

theorem sending_step (h : Sending cfg (s.nodes i) s.now) (hs : s.step cfg (t, a) = some s') :
    Sending cfg (s'.nodes i) s'.now := by
  obtain ⟨hle, hnow⟩ := now_of_step hs
  rw [hnow]
  unfold Sending at h ⊢
  rcases loop_of_step hs i with ⟨-, hloop⟩ | ⟨w, -, -, -, hloop⟩ |
    ⟨k, since, sends, -, -, hbefore, hloop⟩ | ⟨since, -, hbefore, hloop⟩
  · rw [hloop]
    split
    · rename_i hbefore
      rw [hbefore] at h
      exact h.trans (add_le_add_left hle _)
    · rename_i hbefore
      rw [hbefore] at h
      exact h.trans hle
  · rw [hloop]
  · rw [hbefore] at h
    rw [hloop]
    exact h.trans hle
  · rw [hloop]

theorem Expected.before (h : Expected cfg tm s i j silence.since) (hi : i ∈ live) (hj : j ∈ live)
    (hri : (s.nodes i).running = true) (hrj : (s.nodes j).running = true)
    (hinterval : 0 < cfg.heartbeatInterval)
    (hslack : tm.oversleep + tm.delivery + tm.broadcast < 2 * cfg.heartbeatInterval)
    (hregular : Regular tm live s (t, a)) : t < silence.since + 3 * cfg.heartbeatInterval := by
  obtain ⟨hdue, hhandled⟩ := hregular
  have hdue := hdue i hi hri
  have hoversleep := tm.oversleep_nonneg
  have hdelivery := tm.delivery_nonneg
  cases h with
  | @sent k hb entry sender target new soon =>
    subst sender target
    have hbound : t ≤ hb.sentAt + tm.delivery :=
      hhandled hb (List.mem_of_getElem? entry) new hi hj hri hrj
    linarith
  | @sleeping w loop soon =>
    have hbound : t ≤ w + tm.oversleep := by rwa [loop] at hdue
    linarith
  | @broadcasting b sends loop soon =>
    have hbound : t ≤ b + tm.broadcast := by rwa [loop] at hdue
    linarith

/-- Every heartbeat is followed by another one. -/
theorem expected_step (h : Expected cfg tm s i j silence.since) (hi : i ∈ live)
    (hri : (s.nodes i).running = true) (hj : j ∈ cfg.getOtherNodes i)
    (hsending : Sending cfg (s.nodes i) s.now)
    (hregular : Regular tm live s (t, a)) (hs : s.step cfg (t, a) = some s') :
    Expected cfg tm s' i j (s.heard j i t silence a).since := by
  obtain ⟨hle, -⟩ := now_of_step hs
  have hbroadcast := tm.broadcast_nonneg
  by_cases hcame : ∃ k hb, a = .deliver k ∧ s.heartbeats[k]? = some hb ∧ hb.sender = i ∧
      hb.target = j
  · obtain ⟨k, hb, rfl, hk, hsender, htarget⟩ := hcame
    have hheard : (s.heard j i t silence (.deliver k)).since = t := by
      rw [heard_deliver hk, if_pos ⟨htarget, hsender⟩]
    rw [hheard]
    have hloop : (s'.nodes i).heartbeatLoop = (s.nodes i).heartbeatLoop := by
      rcases loop_of_step hs i with ⟨-, hloop⟩ | ⟨_, h, -⟩ | ⟨_, _, _, h, -⟩ | ⟨_, h, -⟩
      · exact hloop
      · cases h
      · cases h
      · cases h
    unfold Sending at hsending
    cases hbefore : (s.nodes i).heartbeatLoop with
    | sleeping w =>
      rw [hbefore] at hsending
      have hsleeps : w ≤ s.now + cfg.heartbeatInterval := hsending
      exact .sleeping (hloop.trans hbefore) (by linarith)
    | broadcasting b sends =>
      rw [hbefore] at hsending
      have hsent : b ≤ s.now := hsending
      exact .broadcasting (hloop.trans hbefore) (hsent.trans hle)
  · rw [since_heard_of_not hcame]
    cases h with
    | @sent k hb entry sender target new soon =>
      refine .sent (heartbeat_kept hs entry ?_) sender target new soon
      rintro rfl
      exact hcame ⟨k, hb, rfl, entry, sender, target⟩
    | @sleeping w loop soon =>
      rcases loop_of_step hs i with ⟨-, hloop⟩ | ⟨w', rfl, hbefore, hdue, hloop⟩ |
        ⟨_, _, _, -, -, hbefore, -⟩ | ⟨_, -, hbefore, -⟩
      · exact .sleeping (hloop.trans loop) soon
      · obtain rfl := HeartbeatLoop.sleeping.inj (loop.symm.trans hbefore)
        have hlate : t ≤ w + tm.oversleep := by
          have := hregular.1 i hi hri
          rwa [loop] at this
        obtain ⟨k, hk⟩ : ∃ k, s'.heartbeats[k]? = some (⟨i, j, t, false⟩ : Heartbeat) := by
          apply List.getElem?_of_mem
          rcases heartbeats_of_step hs with ⟨hnot, -⟩ | ⟨i', heq, -, -, hsent⟩ |
            ⟨_, _, heq, -⟩
          · exact absurd rfl (hnot i)
          · obtain rfl := BaseAction.wake.inj heq
            rw [hsent]
            exact List.mem_append_right _ (List.mem_map_of_mem hj)
          · cases heq
        exact .sent hk rfl rfl rfl (by linarith)
      · rw [loop] at hbefore
        cases hbefore
      · rw [loop] at hbefore
        cases hbefore
    | @broadcasting b sends loop soon =>
      rcases loop_of_step hs i with ⟨-, hloop⟩ | ⟨w', -, hbefore, -⟩ |
        ⟨_, _, _, -, -, hbefore, hloop⟩ | ⟨_, rfl, hbefore, hloop⟩
      · exact .broadcasting (hloop.trans loop) soon
      · rw [loop] at hbefore
        cases hbefore
      · obtain ⟨rfl, rfl⟩ := HeartbeatLoop.broadcasting.inj (loop.symm.trans hbefore)
        exact .broadcasting hloop soon
      · obtain ⟨rfl, rfl⟩ := HeartbeatLoop.broadcasting.inj (loop.symm.trans hbefore)
        have hlate : t ≤ b + tm.broadcast := by
          have := hregular.1 i hi hri
          rwa [loop] at this
        exact .sleeping hloop (by linarith)

/-- What holds between two running nodes at any time. -/
structure Trusting (cfg : BaseConfig) (tm : Timing) (s : BaseCluster) (j i : String)
    (silence : Silence) : Prop where
  watching : Watching cfg (s.nodes j) s.now i silence
  sending : Sending cfg (s.nodes i) s.now
  expected : Expected cfg tm s i j silence.since
  short : silence.longest cfg.heartbeatInterval < 3
  unchanged : ∀ change ∈ (s.nodes j).changes, change.nodeId ≠ i

theorem alive_of_short {d : FailureDetector} (h : Hears cfg d i silence)
    (hshort : silence.longest cfg.heartbeatInterval < 3) : d.getNodeStatus i = some .alive := by
  rw [h.status]
  unfold statusOf
  rw [if_neg (by omega), if_neg (by omega)]

theorem trusting_step (hinterval : 0 < cfg.heartbeatInterval)
    (hslack : tm.oversleep + tm.delivery + tm.broadcast < 2 * cfg.heartbeatInterval)
    (hi : i ∈ live) (hj : j ∈ live) (hother : j ∈ cfg.getOtherNodes i)
    (hri : (s.nodes i).running = true) (hrj : (s.nodes j).running = true)
    (h : Trusting cfg tm s j i silence) (hregular : Regular tm live s (t, a))
    (hs : s.step cfg (t, a) = some s') :
    Trusting cfg tm s' j i (s.heard j i t silence a) := by
  have hbefore := h.expected.before hi hj hri hrj hinterval hslack hregular
  have hwatching := watching_step hinterval h.watching hs
  have hshort : (s.heard j i t silence a).longest cfg.heartbeatInterval < 3 := by
    rcases watched_of_step hs j with ⟨k, hb, rfl, hsent, -, -, -⟩ | ⟨rfl, -⟩ | ⟨-, hheard⟩
    · rw [heard_deliver hsent]
      split
      · exact (by decide : (0 : ℤ) < 3)
      · exact h.short
    · have hheard : s.heard j i t silence (.check j) =
          { silence with checks := silence.checks ++ [t] } := if_pos rfl
      rw [hheard, longest_append]
      refine max_lt h.short (Int.floor_lt.mpr ?_)
      rw [div_lt_iff₀ hinterval]
      push_cast
      linarith
    · rw [hheard]
      exact h.short
  refine ⟨hwatching, sending_step h.sending hs,
    expected_step h.expected hi hri hother h.sending hregular hs, hshort, ?_⟩
  rcases watched_of_step hs j with ⟨k, hb, rfl, -, -, -, hnode⟩ | ⟨rfl, hn⟩ | ⟨hsame, -⟩
  · rw [hnode]
    intro change hchange
    rcases List.mem_append.mp hchange with hold | hnew
    · exact h.unchanged change hold
    · intro hnode
      have := h.watching.hears.heartbeat_changes t hb.sender change hnew hnode
      have := h.short
      omega
  · obtain ⟨-, -, -, changes, hchanges, hreports⟩ :=
      h.watching.check hinterval (now_of_step hs).1 hn
    have hnone := hreports i
    rw [alive_of_short h.watching.hears h.short, alive_of_short hwatching.hears hshort,
      changed_self, List.filter_eq_nil_iff] at hnone
    rw [hchanges]
    intro change hchange
    rcases List.mem_append.mp hchange with hold | hnew
    · exact h.unchanged change hold
    · exact fun hnode => hnone change hnew (decide_eq_true hnode)
  · have hchanges : (s'.nodes j).changes = (s.nodes j).changes := congrArg (fun p => p.2.2) hsame
    rw [hchanges]
    exact h.unchanged

theorem trusting_boot {start : String → ℚ} {now : ℚ} (hinterval : 0 < cfg.heartbeatInterval)
    (hother : i ∈ cfg.getOtherNodes j) (hi : start i ≤ now) (hj : start j ≤ now)
    (hstart : start i ≤ start j + tm.broadcast) :
    Trusting cfg tm (boot cfg start now) j i ⟨start j, []⟩ where
  watching := watching_start hother hinterval hj
  sending := add_le_add_left hi _
  expected := .sleeping rfl (add_le_add_left hstart _)
  short := (by decide : (0 : ℤ) < 3)
  unchanged := List.forall_mem_nil _

/-- When loops, handlers and broadcasts together are late by less than two intervals, no node is
    ever suspected while it runs. -/
theorem never_suspected (hinterval : 0 < cfg.heartbeatInterval)
    (hslack : tm.oversleep + tm.delivery + tm.broadcast < 2 * cfg.heartbeatInterval)
    (hi : i ∈ live) (hj : j ∈ live) (hinodes : i ∈ cfg.nodes) (hjnodes : j ∈ cfg.nodes)
    (hne : i ≠ j) {start : String → ℚ} {now : ℚ} (hinow : start i ≤ now) (hjnow : start j ≤ now)
    (hstart : start i ≤ start j + tm.broadcast) {acts : List (ℚ × BaseAction)}
    (hregular : EachStep cfg (Regular tm live) (boot cfg start now) acts)
    (hrun : (boot cfg start now).run cfg acts = some s') (hri : (s'.nodes i).running = true)
    (hrj : (s'.nodes j).running = true) :
    (s'.nodes j).failureDetector.getNodeStatus i = some .alive ∧
      ∀ change ∈ (s'.nodes j).changes, change.nodeId ≠ i := by
  have hthere : j ∈ cfg.getOtherNodes i :=
    List.mem_filter.mpr ⟨hjnodes, decide_eq_true (Ne.symm hne)⟩
  have hback : i ∈ cfg.getOtherNodes j := List.mem_filter.mpr ⟨hinodes, decide_eq_true hne⟩
  have hboot : Trusting cfg tm (boot cfg start now) j i ⟨start j, []⟩ :=
    trusting_boot hinterval hback hinow hjnow hstart
  -- a node that runs has been running all the time
  obtain ⟨silence, htrusting⟩ := Transition.run_preserves
    (I := fun s => (s.nodes i).running = true → (s.nodes j).running = true →
      ∃ silence, Trusting cfg tm s j i silence)
    (fun s a s' hs hregular hstep hri hrj => by
      have hri := running_of_step hstep i hri
      have hrj := running_of_step hstep j hrj
      obtain ⟨silence, htrusting⟩ := hs hri hrj
      exact ⟨_, trusting_step hinterval hslack hi hj hthere hri hrj htrusting hregular hstep⟩)
    (fun _ _ => ⟨_, hboot⟩) hregular hrun hri hrj
  exact ⟨alive_of_short htrusting.watching.hears htrusting.short, htrusting.unchanged⟩

/-- Two nodes, and two rounds of heartbeats between them. -/
def pair : BaseConfig := ⟨["a", "b"], by decide, 1⟩

def pairTiming : Timing :=
  ⟨1 / 2, 1 / 2, 1 / 2, by decide +kernel, by decide +kernel, by decide +kernel⟩

def pairRounds : List (ℚ × BaseAction) :=
  [(1, .wake "a"), (1, .wake "b"), (5 / 4, .deliver 0), (5 / 4, .sendEnds "a" 0),
    (5 / 4, .check "a"), (3 / 2, .check "b"), (3 / 2, .deliver 1), (3 / 2, .broadcastEnds "a"),
    (3 / 2, .sendEnds "b" 1), (3 / 2, .broadcastEnds "b"), (5 / 2, .check "b"),
    (5 / 2, .check "a"), (5 / 2, .wake "b"), (3, .wake "a"), (3, .deliver 2),
    (3, .sendEnds "b" 2), (3, .broadcastEnds "b"), (7 / 2, .deliver 3), (7 / 2, .check "b")]

/-- A check that comes one and a half intervals after the last heartbeat. -/
theorem never_suspected_pair :
    ((boot pair (fun _ => 0) 0).run pair pairRounds).any (fun s =>
      (s.nodes "b").failureDetector.getNodeStatus "a" = some .alive ∧
        (s.nodes "b").changes.filter (fun change => change.nodeId = "a") = []) = true := by
  have hrun : ((boot pair (fun _ => 0) 0).run pair pairRounds).any (fun s =>
      (s.nodes "a").running = true ∧ (s.nodes "b").running = true) = true := by
    decide +kernel
  obtain ⟨s, hs, hrunning⟩ := (Option.any_eq_true _ _).mp hrun
  obtain ⟨hra, hrb⟩ := of_decide_eq_true hrunning
  have hregular : EachStep pair (Regular pairTiming ["a", "b"]) (boot pair (fun _ => 0) 0)
      pairRounds := by
    decide +kernel
  have hnever : (s.nodes "b").failureDetector.getNodeStatus "a" = some .alive ∧
      ∀ change ∈ (s.nodes "b").changes, change.nodeId ≠ "a" :=
    never_suspected (by decide +kernel) (by decide +kernel) (by decide) (by decide) (by decide)
      (by decide) (by decide) le_rfl le_rfl (by decide +kernel) hregular hs hra hrb
  obtain ⟨halive, hchanges⟩ := hnever
  rw [hs]
  refine decide_eq_true ⟨halive, List.filter_eq_nil_iff.mpr fun change hchange hnode => ?_⟩
  exact hchanges change hchange (of_decide_eq_true hnode)

/-! ## Nodes that have stopped -/

/-- What holds between a node and one that stopped at a time. -/
structure Forgotten (cfg : BaseConfig) (tm : Timing) (stopped : ℚ) (s : BaseCluster)
    (j i : String) (silence : Silence) : Prop where
  watching : Watching cfg (s.nodes j) s.now i silence
  running : (s.nodes i).running = false
  sent : ∀ (k : ℕ) (hb : Heartbeat), s.heartbeats[k]? = some hb → hb.sender = i →
    hb.sentAt ≤ stopped
  since : silence.since ≤ stopped + tm.delivery
  round : s.now = stopped ∨ s.now ≤ (s.nodes j).checkLoop + tm.oversleep

theorem forgotten_step {stopped : ℚ} (hinterval : 0 < cfg.heartbeatInterval) (hj : j ∈ live)
    (hrj : (s.nodes j).running = true) (h : Forgotten cfg tm stopped s j i silence)
    (hprompt : Prompt tm live s (t, a)) (hs : s.step cfg (t, a) = some s') :
    Forgotten cfg tm stopped s' j i (s.heard j i t silence a) := by
  obtain ⟨hle, hnow⟩ := now_of_step hs
  refine ⟨watching_step hinterval h.watching hs, ?_, fun k hb hk hsender => ?_, ?_, Or.inr ?_⟩
  · by_contra hrunning
    rw [Bool.not_eq_false] at hrunning
    exact absurd ((running_of_step hs i hrunning).symm.trans h.running) (by decide)
  · rcases heartbeat_origin hs hk with ⟨handled, hold, -⟩ | ⟨i', _, _, -, -, hrunning, -, -, rfl⟩
    · have hearlier := h.sent k _ hold hsender
      exact hearlier
    · subst hsender
      exact absurd (hrunning.symm.trans h.running) (by decide)
  · by_cases hcame : ∃ k hb, a = .deliver k ∧ s.heartbeats[k]? = some hb ∧ hb.sender = i ∧
        hb.target = j
    · obtain ⟨k, hb, rfl, hsent, hsender, htarget⟩ := hcame
      rw [heard_deliver hsent, if_pos ⟨htarget, hsender⟩]
      have hdelivered : t ≤ hb.sentAt + tm.delivery := hprompt.2 hb hsent
      exact hdelivered.trans (add_le_add_left (h.sent k hb hsent hsender) _)
    · rw [since_heard_of_not hcame]
      exact h.since
  · have hround : t ≤ (s.nodes j).checkLoop + tm.oversleep := hprompt.1 j hj hrj
    have hoversleep := tm.oversleep_nonneg
    rw [hnow]
    rcases watched_of_step hs j with ⟨_, _, -, -, -, -, hnode⟩ | ⟨-, hn⟩ | ⟨hsame, -⟩
    · rw [hnode]
      exact hround
    · rw [(h.watching.check hinterval hle hn).2.2.1]
      linarith
    · have hsame : (s'.nodes j).checkLoop = (s.nodes j).checkLoop :=
        congrArg (fun p => p.2.1) hsame
      rw [hsame]
      exact hround

theorem dead_of_longest {d : FailureDetector} (h : Hears cfg d i silence)
    (hlong : 5 ≤ silence.longest cfg.heartbeatInterval) : d.getNodeStatus i = some .dead := by
  rw [h.status]
  unfold statusOf
  rw [if_pos hlong]

theorem sent_run {start : String → ℚ} {now : ℚ} {acts : List (ℚ × BaseAction)}
    (hrun : (boot cfg start now).run cfg acts = some s) : Sent cfg s :=
  Transition.run_preserves (P := fun _ _ => True) (fun _ _ _ h _ hstep => sent_step h hstep)
    (sent_boot start now) (Transition.eachStep_of_forall _ fun _ _ _ => trivial) hrun

theorem watching_run (hinterval : 0 < cfg.heartbeatInterval) {start : String → ℚ} {now : ℚ}
    (hother : i ∈ cfg.getOtherNodes j) (hjnow : start j ≤ now) {acts : List (ℚ × BaseAction)}
    (hrun : (boot cfg start now).run cfg acts = some s) :
    ∃ silence, Watching cfg (s.nodes j) s.now i silence :=
  Transition.run_preserves (P := fun _ _ => True)
    (I := fun s => ∃ silence, Watching cfg (s.nodes j) s.now i silence)
    (fun _ _ _ ⟨_, hwatching⟩ _ hstep => ⟨_, watching_step hinterval hwatching hstep⟩)
    ⟨_, watching_start hother hinterval hjnow⟩
    (Transition.eachStep_of_forall _ fun _ _ _ => trivial) hrun

/-- A node that has stopped is dead for every other one that checks in time, six intervals after
    its last heartbeat at the latest, and that is the last that was reported of it. -/
theorem dead_of_stopped (hinterval : 0 < cfg.heartbeatInterval) (hj : j ∈ live)
    (hinodes : i ∈ cfg.nodes) (hne : i ≠ j) {start : String → ℚ} {now : ℚ} (hjnow : start j ≤ now)
    {before after : List (ℚ × BaseAction)} (hbefore : (boot cfg start now).run cfg before = some s)
    (hstopped : (s.nodes i).running = false) (hafter : s.run cfg after = some s')
    (hprompt : EachStep cfg (Prompt tm live) s after) (hrj : (s'.nodes j).running = true)
    (hlong : s.now + tm.delivery + 6 * cfg.heartbeatInterval + tm.oversleep ≤ s'.now) :
    (s'.nodes j).failureDetector.getNodeStatus i = some .dead ∧
      ∃ change, ((s'.nodes j).changes.filter fun change => change.nodeId = i).getLast? =
        some change ∧ change.newStatus = .dead := by
  have hback : i ∈ cfg.getOtherNodes j := List.mem_filter.mpr ⟨hinodes, decide_eq_true hne⟩
  have hsent := sent_run hbefore
  obtain ⟨silence, hwatching⟩ := watching_run hinterval hback hjnow hbefore
  have hdelivery := tm.delivery_nonneg
  have hoversleep := tm.oversleep_nonneg
  have hstart : Forgotten cfg tm s.now s j i silence :=
    ⟨hwatching, hstopped, fun k hb hk _ => (hsent k hb hk).2.2, by linarith [hwatching.since],
      Or.inl rfl⟩
  obtain ⟨silence', hforgotten⟩ := Transition.run_preserves
    (I := fun s' => (s'.nodes j).running = true →
      ∃ silence, Forgotten cfg tm s.now s' j i silence)
    (fun u a u' hu hprompt hstep hrj => by
      have hrj := running_of_step hstep j hrj
      obtain ⟨silence, hforgotten⟩ := hu hrj
      exact ⟨_, forgotten_step hinterval hj hrj hforgotten hprompt hstep⟩)
    (fun _ => ⟨_, hstart⟩) hprompt hafter hrj
  have hround : s'.now ≤ (s'.nodes j).checkLoop + tm.oversleep :=
    hforgotten.round.resolve_left fun heq => by linarith
  have hfive := hforgotten.watching.dead (by linarith [hforgotten.since])
  have hdead := dead_of_longest hforgotten.watching.hears hfive
  exact ⟨hdead, exists_of_lastReported
    (Option.some.inj (hforgotten.watching.reported.symm.trans hdead)) (by decide)⟩

/-- Node `a` sends one heartbeat and stops. -/
def pairStops : List (ℚ × BaseAction) := [(1, .wake "a"), (1, .check "b"), (1, .stop "a")]

def pairChecks : List (ℚ × BaseAction) :=
  [(3 / 2, .deliver 0), (2, .check "b"), (3, .check "b"), (4, .check "b"), (5, .check "b"),
    (6, .check "b"), (7, .check "b"), (8, .check "b")]

theorem dead_of_stopped_pair :
    ((boot pair (fun _ => 0) 0).run pair (pairStops ++ pairChecks)).any (fun s =>
      (s.nodes "b").failureDetector.getNodeStatus "a" = some .dead ∧
        ((s.nodes "b").changes.filter fun change => change.nodeId = "a").getLast?.map
          StatusChange.newStatus = some .dead) = true := by
  have hbefore : ((boot pair (fun _ => 0) 0).run pair pairStops).any (fun s =>
      s.now = 1 ∧ (s.nodes "a").running = false ∧
        EachStep pair (Prompt pairTiming ["b"]) s pairChecks ∧
        (s.run pair pairChecks).any (fun s' =>
          s'.now = 8 ∧ (s'.nodes "b").running = true)) = true := by
    decide +kernel
  obtain ⟨s, hs, h⟩ := (Option.any_eq_true _ _).mp hbefore
  obtain ⟨hnow, hstopped, hprompt, hafter⟩ := of_decide_eq_true h
  obtain ⟨s', hs', h'⟩ := (Option.any_eq_true _ _).mp hafter
  obtain ⟨hnow', hrunning⟩ := of_decide_eq_true h'
  have hdead : (s'.nodes "b").failureDetector.getNodeStatus "a" = some .dead ∧
      ∃ change, ((s'.nodes "b").changes.filter fun change => change.nodeId = "a").getLast? =
        some change ∧ change.newStatus = .dead :=
    dead_of_stopped (by decide +kernel) (by decide) (by decide) (by decide) le_rfl hs hstopped hs'
      hprompt hrunning (by rw [hnow, hnow']; decide +kernel)
  have hall : (boot pair (fun _ => 0) 0).run pair (pairStops ++ pairChecks) = some s' :=
    (Transition.run_append_of_run hs _).trans hs'
  obtain ⟨hstatus, change, hlast, hnew⟩ := hdead
  rw [hall]
  exact decide_eq_true ⟨hstatus, Option.map_eq_some_iff.mpr ⟨change, hlast, hnew⟩⟩

/-! ## A node that hangs -/

/-- Node `i` has sent nothing after time `bound`. -/
def SentBy (s : BaseCluster) (i : String) (bound : ℚ) : Prop :=
  ∀ (k : ℕ) (hb : Heartbeat), s.heartbeats[k]? = some hb → hb.sender = i → hb.sentAt ≤ bound

/-- One of the sends goes to `h` and has not ended, unless it has timed out. -/
def Waiting (h : String) (s : BaseCluster) (since : ℚ) (sends : List ℕ) : Prop :=
  (∃ k ∈ sends, ∃ hb, s.heartbeats[k]? = some hb ∧ hb.target = h ∧ hb.sentAt = since) ∨
    since + requestTimeout ≤ s.now

/-- A broadcast takes five seconds, and an interval passes before the next one. -/
def Spacing (cfg : BaseConfig) (h : String) (s : BaseCluster) (i : String) :
    HeartbeatLoop → Prop
  | .sleeping w => s.SentBy i (w - requestTimeout - cfg.heartbeatInterval)
  | .broadcasting since sends => s.SentBy i since ∧ Waiting h s since sends

structure Spaced (cfg : BaseConfig) (h : String) (s : BaseCluster) (i : String) : Prop where
  loop : Spacing cfg h s i (s.nodes i).heartbeatLoop
  apart : ∀ (k k' : ℕ) (hb hb' : Heartbeat), s.heartbeats[k]? = some hb →
    s.heartbeats[k']? = some hb' → k < k' → hb.sender = i → hb'.sender = i →
    hb.target = hb'.target → hb.sentAt + requestTimeout + cfg.heartbeatInterval ≤ hb'.sentAt

variable {h : String}

theorem spaced_boot (start : String → ℚ) (now : ℚ) : Spaced cfg h (boot cfg start now) i where
  loop _ _ hk := by cases hk
  apart _ _ _ _ hk := by cases hk

theorem sentBy_step {bound : ℚ} (hsent : s.SentBy i bound) (hs : s.step cfg (t, a) = some s')
    (ha : a ≠ .wake i) : s'.SentBy i bound := by
  intro k hb hk hsender
  rcases heartbeat_origin hs hk with ⟨handled, hold, -⟩ | ⟨i', _, _, rfl, -, -, -, -, rfl⟩
  · have hearlier := hsent k _ hold hsender
    exact hearlier
  · subst hsender
    exact absurd rfl ha

theorem waiting_step {since : ℚ} {sends : List ℕ} (hwaiting : Waiting h s since sends)
    (hs : s.step cfg (t, a) = some s') : Waiting h s' since sends := by
  obtain ⟨hle, hnow⟩ := now_of_step hs
  rcases hwaiting with ⟨k, hmem, hb, hk, htarget, hsentAt⟩ | hpassed
  · refine Or.inl ⟨k, hmem, ?_⟩
    by_cases ha : a = .deliver k
    · subst ha
      exact ⟨{ hb with handled := true }, (deliver_of_step hs hk).2.2.1, htarget, hsentAt⟩
    · exact ⟨hb, heartbeat_kept hs hk ha, htarget, hsentAt⟩
  · exact Or.inr (hpassed.trans (hle.trans hnow.ge))

theorem spacing_step (hh : h ∈ cfg.nodes) (hne : i ≠ h) (hsent : Sent cfg s)
    (hspacing : Spacing cfg h s i (s.nodes i).heartbeatLoop) (hhangs : Hangs h s (t, a))
    (hs : s.step cfg (t, a) = some s') : Spacing cfg h s' i (s'.nodes i).heartbeatLoop := by
  obtain ⟨hle, hnow⟩ := now_of_step hs
  rcases loop_of_step hs i with ⟨ha, hsame⟩ | ⟨w, rfl, hbefore, hdue, hafter⟩ |
    ⟨k, since, sends, rfl, hmem, hbefore, hafter⟩ | ⟨since, rfl, hbefore, hafter⟩
  · rw [hsame]
    cases hloop : (s.nodes i).heartbeatLoop with
    | sleeping w =>
      rw [hloop] at hspacing
      exact sentBy_step hspacing hs ha
    | broadcasting since sends =>
      rw [hloop] at hspacing
      exact ⟨sentBy_step hspacing.1 hs ha, waiting_step hspacing.2 hs⟩
  · rw [hafter]
    refine ⟨fun k hb hk _ => ?_, Or.inl ?_⟩
    · exact ((sent_step hsent hs) k hb hk).2.2.trans hnow.le
    · have hmem : h ∈ cfg.getOtherNodes i := List.mem_filter.mpr ⟨hh, decide_eq_true hne.symm⟩
      obtain ⟨p, hp⟩ := List.getElem?_of_mem hmem
      refine ⟨s.heartbeats.length + p, ?_, ⟨i, h, t, false⟩, ?_, rfl, rfl⟩
      · have := (List.getElem?_eq_some_iff.mp hp).1
        rw [List.mem_range'_1]
        omega
      · rcases heartbeats_of_step hs with ⟨hnot, -⟩ | ⟨i', heq, -, -, hnew⟩ | ⟨_, _, heq, -⟩
        · exact absurd rfl (hnot i)
        · obtain rfl := BaseAction.wake.inj heq
          rw [hnew, List.getElem?_append_right (Nat.le_add_right ..), Nat.add_sub_cancel_left,
            List.getElem?_map, hp]
          rfl
        · cases heq
  · rw [hbefore] at hspacing
    rw [hafter]
    refine ⟨sentBy_step hspacing.1 hs nofun, ?_⟩
    rcases hspacing.2 with ⟨k', hmem', hb, hk', htarget, hsentAt⟩ | hpassed
    · by_cases heq : k' = k
      · subst heq
        have htimeout : hb.sentAt + requestTimeout ≤ t := hhangs hb hk' htarget
        rw [hsentAt, ← hnow] at htimeout
        exact Or.inr htimeout
      · exact waiting_step (Or.inl ⟨k', (List.mem_erase_of_ne heq).mpr hmem', hb, hk', htarget,
          hsentAt⟩) hs
    · exact waiting_step (Or.inr hpassed) hs
  · rw [hbefore] at hspacing
    rw [hafter]
    have hpassed : since + requestTimeout ≤ s.now :=
      hspacing.2.resolve_left fun ⟨k, hmem, _⟩ => List.not_mem_nil hmem
    intro k hb hk hsender
    have hearlier := sentBy_step hspacing.1 hs nofun k hb hk hsender
    linarith

theorem spaced_step (hh : h ∈ cfg.nodes) (hne : i ≠ h) (hsent : Sent cfg s)
    (hspaced : Spaced cfg h s i) (hhangs : Hangs h s (t, a)) (hs : s.step cfg (t, a) = some s') :
    Spaced cfg h s' i := by
  refine ⟨spacing_step hh hne hsent hspaced.loop hhangs hs,
    fun k k' hb hb' hk hk' hlt hsender hsender' htarget => ?_⟩
  rcases heartbeat_origin hs hk' with ⟨handled', hold', -⟩ |
    ⟨i', p', j', rfl, -, -, hp', hj', rfl⟩
  · rcases heartbeat_origin hs hk with ⟨handled, hold, -⟩ | ⟨i₁, p, j₁, -, -, -, hp, -, -⟩
    · have hearlier := hspaced.apart k k' _ _ hold hold' hlt hsender hsender' htarget
      exact hearlier
    · have hlt' := (List.getElem?_eq_some_iff.mp hold').1
      omega
  · obtain rfl : i' = i := hsender'
    obtain ⟨w, hbefore, hdue⟩ : ∃ w, (s.nodes i').heartbeatLoop = .sleeping w ∧ w ≤ t := by
      rcases loop_of_step hs i' with ⟨ha, -⟩ | ⟨w, -, hbefore, hdue, -⟩ | ⟨_, _, _, heq, -⟩ |
        ⟨_, heq, -⟩
      · exact absurd rfl ha
      · exact ⟨w, hbefore, hdue⟩
      · cases heq
      · cases heq
    rcases heartbeat_origin hs hk with ⟨handled, hold, -⟩ | ⟨i₁, p, j₁, heq, -, -, hp, hj, rfl⟩
    · have hspacing := hspaced.loop
      rw [hbefore] at hspacing
      have hearlier := hspacing k _ hold hsender
      dsimp only at hearlier
      show hb.sentAt + requestTimeout + cfg.heartbeatInterval ≤ t
      linarith
    · -- the targets of one broadcast are different nodes
      obtain rfl := BaseAction.wake.inj heq
      obtain rfl : j₁ = j' := htarget
      have hnodup : (cfg.getOtherNodes i').Nodup := cfg.nodup.filter _
      have hsame := (List.getElem?_inj (List.getElem?_eq_some_iff.mp hj).1 hnodup).mp
        (hj.trans hj'.symm)
      omega

/-- Once a heartbeat of `i` has been handled by `j`, the last one came soon after it was sent. -/
def Followed (tm : Timing) (s : BaseCluster) (j i : String) (since : ℚ) : Prop :=
  (∃ hb ∈ s.heartbeats, hb.handled = true ∧ hb.sender = i ∧ hb.target = j) →
    ∃ hb ∈ s.heartbeats, hb.handled = true ∧ hb.sender = i ∧ hb.target = j ∧
      since ≤ hb.sentAt + tm.delivery

theorem followed_step (hfollowed : Followed tm s j i silence.since)
    (hprompt : Prompt tm live s (t, a)) (hs : s.step cfg (t, a) = some s') :
    Followed tm s' j i (s.heard j i t silence a).since := by
  by_cases hcame : ∃ k hb, a = .deliver k ∧ s.heartbeats[k]? = some hb ∧ hb.sender = i ∧
      hb.target = j
  · obtain ⟨k, hb, rfl, hk, hsender, htarget⟩ := hcame
    have hheard : (s.heard j i t silence (.deliver k)).since = t := by
      rw [heard_deliver hk, if_pos ⟨htarget, hsender⟩]
    rw [hheard]
    have hdelivered : t ≤ hb.sentAt + tm.delivery := hprompt.2 hb hk
    exact fun _ => ⟨{ hb with handled := true },
      List.mem_of_getElem? (deliver_of_step hs hk).2.2.1, rfl, hsender, htarget, hdelivered⟩
  · rw [since_heard_of_not hcame]
    rintro ⟨hb, hmem, hhandled, hsender, htarget⟩
    obtain ⟨k, hk⟩ := List.getElem?_of_mem hmem
    have hbefore : ∃ hb ∈ s.heartbeats, hb.handled = true ∧ hb.sender = i ∧ hb.target = j := by
      rcases heartbeat_origin hs hk with ⟨handled, hold, hchange⟩ |
        ⟨_, _, _, -, -, -, -, -, rfl⟩
      · refine ⟨_, List.mem_of_getElem? hold, ?_, hsender, htarget⟩
        by_contra hnot
        exact hcame ⟨k, _, hchange fun heq => hnot (heq.trans hhandled), hold, hsender, htarget⟩
      · cases hhandled
    obtain ⟨hb₀, hmem₀, hhandled₀, hsender₀, htarget₀, hsince⟩ := hfollowed hbefore
    obtain ⟨k₀, hk₀⟩ := List.getElem?_of_mem hmem₀
    have hkept : s'.heartbeats[k₀]? = some hb₀ := by
      refine heartbeat_kept hs hk₀ ?_
      rintro rfl
      exact hcame ⟨k₀, hb₀, rfl, hk₀, hsender₀, htarget₀⟩
    exact ⟨hb₀, List.mem_of_getElem? hkept, hhandled₀, hsender₀, htarget₀, hsince⟩

/-- What holds for every two nodes while `h` hangs. -/
structure Interrupted (cfg : BaseConfig) (tm : Timing) (h : String) (s : BaseCluster)
    (j i : String) (silence : Silence) : Prop where
  watching : Watching cfg (s.nodes j) s.now i silence
  sent : Sent cfg s
  spaced : Spaced cfg h s i
  followed : Followed tm s j i silence.since

/-- While one node hangs, every two heartbeats of another one are so far apart that it is dead in
    between, and comes back with the second. -/
theorem dead_between_heartbeats (hinterval : 0 < cfg.heartbeatInterval)
    (hshort : tm.delivery + tm.oversleep + 5 * cfg.heartbeatInterval ≤ requestTimeout)
    (hh : h ∈ cfg.nodes) {start : String → ℚ} {now : ℚ} (hstart : ∀ i ∈ cfg.nodes, start i ≤ now)
    {acts : List (ℚ × BaseAction)} {k : ℕ}
    (hprompt : EachStep cfg (Prompt tm live) (boot cfg start now) (acts ++ [(t, .deliver k)]))
    (hhangs : EachStep cfg (Hangs h) (boot cfg start now) acts)
    (hrun : (boot cfg start now).run cfg acts = some s)
    (hs : s.step cfg (t, .deliver k) = some s') {hb : Heartbeat}
    (hk : s.heartbeats[k]? = some hb) (hsender : hb.sender ≠ h) (htarget : hb.target ∈ live)
    (hearlier : ∃ hb' ∈ s.heartbeats, hb'.handled = true ∧ hb'.sender = hb.sender ∧
      hb'.target = hb.target) :
    (s.nodes hb.target).failureDetector.getNodeStatus hb.sender = some .dead ∧
      (s'.nodes hb.target).changes =
        (s.nodes hb.target).changes ++ [⟨hb.sender, .dead, .alive⟩] := by
  obtain ⟨hi, hthere, -⟩ := sent_run hrun k hb hk
  obtain ⟨hjnodes, hne⟩ := List.mem_filter.mp hthere
  have hback : hb.sender ∈ cfg.getOtherNodes hb.target :=
    List.mem_filter.mpr ⟨hi, decide_eq_true (of_decide_eq_true hne).symm⟩
  obtain ⟨hprompt, hlast⟩ := Transition.EachStep.append hprompt
  have hlast : Prompt tm live s (t, .deliver k) := (hlast s hrun).1
  have hboot : Interrupted cfg tm h (boot cfg start now) hb.target hb.sender ⟨_, []⟩ :=
    ⟨watching_start hback hinterval (hstart _ hjnodes), sent_boot start now, spaced_boot start now,
      fun ⟨_, hmem, _⟩ => absurd hmem List.not_mem_nil⟩
  obtain ⟨silence, hinv⟩ := Transition.run_preserves
    (I := fun s => ∃ silence, Interrupted cfg tm h s hb.target hb.sender silence)
    (fun u a u' ⟨silence, hu⟩ hstep hu' =>
      ⟨_, watching_step hinterval hu.watching hu', sent_step hu.sent hu',
        spaced_step hh hsender hu.sent hu.spaced hstep.2 hu',
        followed_step hu.followed hstep.1 hu'⟩)
    ⟨_, hboot⟩ (hprompt.and hhangs) hrun
  obtain ⟨hnew, hrunning, -, hnode⟩ := deliver_of_step hs hk
  -- the last one handled was sent before this one, as it came in time
  obtain ⟨hb', hmem', hhandled', hsender', htarget', hsince⟩ := hinv.followed hearlier
  obtain ⟨k', hk'⟩ := List.getElem?_of_mem hmem'
  have hdelivered : t ≤ hb.sentAt + tm.delivery := hlast.2 hb hk
  have hround : t ≤ (s.nodes hb.target).checkLoop + tm.oversleep := hlast.1 _ htarget hrunning
  have hnow := (now_of_step hs).1
  have hoversleep := tm.oversleep_nonneg
  have hapart : hb'.sentAt + requestTimeout + cfg.heartbeatInterval ≤ hb.sentAt := by
    rcases Nat.lt_trichotomy k' k with hlt | rfl | hlt
    · exact hinv.spaced.apart k' k hb' hb hk' hk hlt hsender' rfl htarget'
    · obtain rfl := Option.some.inj (hk.symm.trans hk')
      exact absurd (hnew.symm.trans hhandled') (by decide)
    · have hafter := hinv.spaced.apart k k' hb hb' hk hk' hlt rfl hsender' htarget'.symm
      have hsent := (hinv.sent k' hb' hk').2.2
      linarith
  have hsentAt := (hinv.sent k hb hk).2.2
  have hfive := hinv.watching.dead (by linarith)
  have hstatus := dead_of_longest hinv.watching.hears hfive
  refine ⟨hstatus, ?_⟩
  have hset := recordHeartbeat_known hinv.watching.hears.state t
  have hdead : (silence.state (s.nodes hb.target).failureDetector).status = .dead := by
    unfold getNodeStatus at hstatus
    rw [hinv.watching.hears.state] at hstatus
    exact Option.some.inj hstatus
  rw [hnode]
  show _ ++ (((s.nodes hb.target).failureDetector.recordHeartbeat t hb.sender).2).toList = _
  rw [hset.change, hdead]
  rfl


/-- Three nodes of which `h` hangs; `a` sends two broadcasts and `b` checks now and then. -/
def trio : BaseConfig := ⟨["a", "b", "h"], by decide, 1 / 2⟩

def trioTiming : Timing := ⟨1, 1, 6, by decide +kernel, by decide +kernel, by decide +kernel⟩

def trioBroadcasts : List (ℚ × BaseAction) :=
  [(1 / 2, .wake "a"), (1 / 2, .deliver 0), (1, .sendEnds "a" 0), (1, .check "b"),
    (5 / 2, .check "b"), (4, .check "b"), (11 / 2, .check "b"), (11 / 2, .sendEnds "a" 1),
    (11 / 2, .broadcastEnds "a"), (6, .wake "a")]

theorem dead_between_heartbeats_trio :
    ((boot trio (fun _ => 0) 0).run trio trioBroadcasts).any (fun s =>
      (s.nodes "b").failureDetector.getNodeStatus "a" = some .dead) = true := by
  have hrun : ((boot trio (fun _ => 0) 0).run trio trioBroadcasts).any (fun s =>
      (s.step trio (6, .deliver 2)).isSome = true ∧
        s.heartbeats[2]? = some ⟨"a", "b", 6, false⟩ ∧
        ∃ hb ∈ s.heartbeats, hb.handled = true ∧ hb.sender = "a" ∧ hb.target = "b") = true := by
    decide +kernel
  obtain ⟨s, hs, h⟩ := (Option.any_eq_true _ _).mp hrun
  obtain ⟨hstep, hk, hearlier⟩ := of_decide_eq_true h
  obtain ⟨s', hs'⟩ := Option.isSome_iff_exists.mp hstep
  have hprompt : EachStep trio (Prompt trioTiming ["b"]) (boot trio (fun _ => 0) 0)
      (trioBroadcasts ++ [(6, .deliver 2)]) := by
    decide +kernel
  have hhangs : EachStep trio (Hangs "h") (boot trio (fun _ => 0) 0) trioBroadcasts := by
    decide +kernel
  have hdead := dead_between_heartbeats (by decide +kernel) (by decide +kernel) (by decide)
    (fun _ _ => le_rfl) hprompt hhangs hs hs' hk (by decide) (by decide) hearlier
  rw [hs]
  exact decide_eq_true hdead.1

end BaseCluster

end Pynchronize
