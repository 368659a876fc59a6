import Mathlib.Data.List.Induction
import Mathlib.Data.Rat.Floor
import Pynchronize.Lib.Transition
import Pynchronize.Queue.Detector

/-!
# Statuses and heartbeats

`_check_nodes` touches a status only when a count has grown, and a heartbeat
resets it. `status_exact` says what comes of it: the status of a node is read off
the longest silence that a check has seen since the node was heard of, and each
change of a status is reported once.
-/

namespace Pynchronize

open Lib

inductive DetectorCall
  | register (now : ℚ) (nodeId : String)
  | heartbeat (now : ℚ) (nodeId : String)
  | check (now : ℚ)

namespace FailureDetector

def boot (nodeId : String) (heartbeatInterval : ℚ) (suspectThreshold deadThreshold : ℤ) :
    FailureDetector where
  nodeId := nodeId
  heartbeatInterval := heartbeatInterval
  suspectThreshold := suspectThreshold
  deadThreshold := deadThreshold

/-- `_check_nodes` from some node on. -/
def checkRounds (now : ℚ) (d : FailureDetector) :
    List String → Option (FailureDetector × List StatusChange)
  | [] => some (d, [])
  | nodeId :: rest => do
    let (d, change) ← d.checkNode now nodeId
    let (d, changes) ← d.checkRounds now rest
    pure (d, change.toList ++ changes)

def checkNodes (now : ℚ) (d : FailureDetector) : Option (FailureDetector × List StatusChange) :=
  d.checkRounds now d.nodes.keys

/-- The detector after a call, and the callbacks that the call asks for. -/
def call (d : FailureDetector) : DetectorCall → Option (FailureDetector × List StatusChange)
  | .register now nodeId => some (d.registerNode now nodeId, [])
  | .heartbeat now nodeId =>
    let (d, change) := d.recordHeartbeat now nodeId
    some (d, change.toList)
  | .check now => d.checkNodes now

def step (d : FailureDetector) (c : DetectorCall) : Option FailureDetector :=
  (d.call c).map Prod.fst

/-! ## What the statuses are for -/

/-- When a node was last heard of or registered, and the readings of the checks since then. -/
structure Silence where
  since : ℚ
  checks : List ℚ := []

/-- The most whole intervals that one of the checks has missed. -/
def Silence.longest (interval : ℚ) (s : Silence) : ℤ :=
  (s.checks.map fun now => ⌊(now - s.since) / interval⌋).foldl max 0

def Silence.hear (own n : String) (s : Option Silence) : DetectorCall → Option Silence
  | .register now nodeId => if nodeId = n ∧ n ≠ own ∧ s = none then some ⟨now, []⟩ else s
  | .heartbeat now nodeId => if nodeId = n then s.map fun _ => ⟨now, []⟩ else s
  | .check now => s.map fun s => { s with checks := s.checks ++ [now] }

/-- The silence of node `n` after some calls, if `n` is registered. -/
def silence (own n : String) (calls : List DetectorCall) : Option Silence :=
  calls.foldl (Silence.hear own n) none

def statusOf (suspectThreshold deadThreshold missed : ℤ) : NodeStatus :=
  if deadThreshold ≤ missed then .dead
  else if suspectThreshold ≤ missed then .suspected
  else .alive

/-- The changes to report for a node. -/
def changed (n : String) : Option NodeStatus → Option NodeStatus → List StatusChange
  | some old, some new => if old = new then [] else [⟨n, old, new⟩]
  | _, _ => []

/-- `changes` has each change of a status between two states once, and no other. -/
def Reports (d d' : FailureDetector) (changes : List StatusChange) : Prop :=
  ∀ n, changes.filter (fun change => change.nodeId = n) =
    changed n (d.getNodeStatus n) (d'.getNodeStatus n)

/-! ## Counts -/

theorem max_truncate (x : ℚ) : max 0 (truncate x) = max 0 ⌊x⌋ := by
  have hden : (0 : ℤ) < x.den := Int.natCast_pos.mpr x.den_pos
  unfold truncate
  rw [Rat.floor_def']
  rcases le_or_gt 0 x.num with hnum | hnum
  · rw [Int.tdiv_eq_ediv_of_nonneg hnum]
  · have htdiv : 0 ≤ (-x.num).tdiv x.den := Int.tdiv_nonneg (neg_nonneg.mpr hnum.le) hden.le
    have hediv : x.num / x.den ≤ 0 := Int.ediv_nonpos_of_nonpos_of_neg hnum.le hden
    rw [Int.neg_tdiv, neg_nonneg] at htdiv
    rw [max_eq_left htdiv, max_eq_left hediv]

theorem longest_append (interval : ℚ) (s : Silence) (now : ℚ) :
    Silence.longest interval { s with checks := s.checks ++ [now] } =
      max (s.longest interval) ⌊(now - s.since) / interval⌋ := by
  simp [Silence.longest]

theorem longest_nonneg (interval : ℚ) (s : Silence) : 0 ≤ s.longest interval := by
  unfold Silence.longest
  generalize s.checks.map _ = l
  induction l using List.reverseRecOn with
  | nil => exact le_refl _
  | append_singleton l x ih =>
    rw [List.foldl_append]
    exact ih.trans (le_max_left _ _)

variable {d d' : FailureDetector}

/-- What the detector keeps of a silence. -/
def Silence.state (d : FailureDetector) (s : Silence) : NodeState where
  status := statusOf d.suspectThreshold d.deadThreshold (s.longest d.heartbeatInterval)
  lastHeartbeat := s.since
  missedHeartbeats := s.longest d.heartbeatInterval

/-- Below the threshold of suspicion the status cannot have been another one before. -/
theorem checkedState_state (now : ℚ) (s : Silence) :
    d.checkedState now (s.state d) =
      Silence.state d { s with checks := s.checks ++ [now] } := by
  have hnonneg := longest_nonneg d.heartbeatInterval s
  have hmax := max_truncate ((now - s.since) / d.heartbeatInterval)
  have happend := longest_append d.heartbeatInterval s now
  unfold checkedState Silence.state
  dsimp only
  split
  · rename_i hmore
    have hlongest : Silence.longest d.heartbeatInterval { s with checks := s.checks ++ [now] } =
        truncate ((now - s.since) / d.heartbeatInterval) := by
      rw [happend]
      omega
    rw [hlongest]
    congr 1
    unfold statusOf
    split
    · rfl
    split
    · rfl
    · rw [if_neg (by omega), if_neg (by omega)]
  · rename_i hmore
    have hlongest : Silence.longest d.heartbeatInterval { s with checks := s.checks ++ [now] } =
        s.longest d.heartbeatInterval := by
      rw [happend]
      omega
    rw [hlongest]

/-! ## Reports -/

theorem changed_self (n : String) (status : Option NodeStatus) : changed n status status = [] := by
  cases status with
  | none => rfl
  | some status => exact if_pos rfl

theorem reports_of_status (h : ∀ n, d'.getNodeStatus n = d.getNodeStatus n) : Reports d d' [] := by
  intro n
  rw [h, changed_self]
  rfl

theorem Reports.append {d'' : FailureDetector} {changes changes' : List StatusChange}
    (h : Reports d d' changes) (h' : Reports d' d'' changes')
    (honce : ∀ n, d'.getNodeStatus n = d.getNodeStatus n ∨
      d''.getNodeStatus n = d'.getNodeStatus n) : Reports d d'' (changes ++ changes') := by
  intro n
  rw [List.filter_append, h n, h' n]
  rcases honce n with hsame | hsame
  · rw [hsame, changed_self, List.nil_append]
  · rw [hsame, changed_self, List.append_nil]

theorem Sets.reports {nodeId : String} {old new : NodeState}
    {r : FailureDetector × Option StatusChange} (h : d.Sets nodeId old new r) :
    Reports d r.1 r.2.toList := by
  intro n
  unfold getNodeStatus
  rw [h.get?, h.change]
  by_cases heq : nodeId = n
  · subst heq
    rw [if_pos rfl, h.known]
    show _ = if old.status = new.status then ([] : List StatusChange)
      else [⟨nodeId, old.status, new.status⟩]
    split
    · rfl
    · simp
  · rw [if_neg heq, changed_self]
    split
    · rfl
    · simp [heq]

theorem reports_recordHeartbeat (d : FailureDetector) (now : ℚ) (nodeId : String) :
    Reports d (d.recordHeartbeat now nodeId).1 (d.recordHeartbeat now nodeId).2.toList := by
  rcases d.recordHeartbeat_cases now nodeId with hsame | ⟨old, hs⟩
  · rw [hsame]
    exact reports_of_status fun _ => rfl
  · exact hs.reports

/-! ## Calls -/

/-- What the rounds over some nodes do. -/
structure Checks (now : ℚ) (d : FailureDetector) (keys : List String)
    (r : FailureDetector × List StatusChange) : Prop where
  same : r.1 = { d with nodes := r.1.nodes }
  get? : ∀ n, r.1.nodes.get? n =
    if n ∈ keys then (d.nodes.get? n).map (d.checkedState now) else d.nodes.get? n
  reports : Reports d r.1 r.2

theorem checkNode_checks (hinterval : d.heartbeatInterval ≠ 0) (now : ℚ) (nodeId : String) :
    ∃ r, d.checkNode now nodeId = some r ∧ Checks now d [nodeId] (r.1, r.2.toList) := by
  obtain ⟨r, hr⟩ := d.exists_checkNode hinterval now nodeId
  rcases checkNode_spec hr with ⟨rfl, hsame⟩ | ⟨old, hs, -⟩
  · refine ⟨_, hr, rfl, fun n => ?_, reports_of_status fun _ => rfl⟩
    split
    · rename_i hn
      obtain rfl := List.mem_singleton.mp hn
      cases hget : d.nodes.get? n with
      | none => rfl
      | some old => exact congrArg some (hsame old hget).symm
    · rfl
  · refine ⟨r, hr, ?_, fun n => ?_, hs.reports⟩
    · show r.1 = { d with nodes := r.1.nodes }
      rw [hs.result]
    · show r.1.nodes.get? n = _
      rw [hs.get?]
      by_cases heq : nodeId = n
      · subst heq
        rw [if_pos rfl, if_pos (List.mem_singleton_self _), hs.known]
        rfl
      · rw [if_neg heq, if_neg fun hn => heq (List.mem_singleton.mp hn).symm]

/-- Each node has one round. -/
theorem checkRounds_checks (hinterval : d.heartbeatInterval ≠ 0) (now : ℚ) {keys : List String}
    (hkeys : keys.Nodup) : ∃ r, d.checkRounds now keys = some r ∧ Checks now d keys r := by
  induction keys generalizing d with
  | nil =>
    exact ⟨_, rfl, rfl, fun n => (if_neg List.not_mem_nil).symm, reports_of_status fun _ => rfl⟩
  | cons nodeId rest ih =>
    obtain ⟨hnodeId, hrest⟩ := List.nodup_cons.mp hkeys
    obtain ⟨⟨d₁, change⟩, hfirst, hone⟩ := d.checkNode_checks hinterval now nodeId
    have hd₁ : d₁ = { d with nodes := d₁.nodes } := hone.same
    have hinterval₁ : d₁.heartbeatInterval = d.heartbeatInterval := by rw [hd₁]
    obtain ⟨⟨d₂, changes⟩, hsecond, hall⟩ := ih (by rw [hinterval₁]; exact hinterval) hrest
    have hd₂ : d₂ = { d₁ with nodes := d₂.nodes } := hall.same
    have hchecked : d₁.checkedState now = d.checkedState now := by rw [hd₁]; rfl
    have hget₁ : ∀ n, n ≠ nodeId → d₁.nodes.get? n = d.nodes.get? n := fun n hne =>
      (hone.get? n).trans (if_neg fun hn => hne (List.mem_singleton.mp hn))
    have hget₂ : ∀ n, n ∉ rest → d₂.nodes.get? n = d₁.nodes.get? n := fun n hn =>
      (hall.get? n).trans (if_neg hn)
    refine ⟨(d₂, change.toList ++ changes), ?_, ?_, fun n => ?_, ?_⟩
    · unfold checkRounds
      rw [hfirst]
      show (d₁.checkRounds now rest).bind _ = _
      rw [hsecond]
      rfl
    · show d₂ = { d with nodes := d₂.nodes }
      rw [hd₂, hd₁]
    · show d₂.nodes.get? n = _
      by_cases heq : n = nodeId
      · subst heq
        rw [hget₂ n hnodeId, hone.get? n, if_pos (List.mem_singleton_self _),
          if_pos (List.mem_cons_self ..)]
      · rw [hall.get? n, hchecked]
        simp only [List.mem_cons, heq, false_or]
        rw [hget₁ n heq]
    · refine hone.reports.append hall.reports fun n => ?_
      show (d₁.nodes.get? n).map _ = (d.nodes.get? n).map _ ∨
        (d₂.nodes.get? n).map _ = (d₁.nodes.get? n).map _
      by_cases heq : n = nodeId
      · subst heq
        exact Or.inr (by rw [hget₂ n hnodeId])
      · exact Or.inl (by rw [hget₁ n heq])

/-- The detector knows of each node what `heard` tells. -/
def Knows (d : FailureDetector) (heard : String → Option Silence) : Prop :=
  ∀ n, d.nodes.get? n = (heard n).map (Silence.state d)

theorem state_of_same {nodes : Dict String NodeState} :
    Silence.state { d with nodes := nodes } = Silence.state d := rfl

variable {heard : String → Option Silence}

theorem Knows.status (h : Knows d heard) (n : String) : d.getNodeStatus n =
    (heard n).map fun s =>
      statusOf d.suspectThreshold d.deadThreshold (s.longest d.heartbeatInterval) := by
  unfold getNodeStatus
  rw [h n, Option.map_map]
  rfl

theorem state_fresh (hsuspect : 1 ≤ d.suspectThreshold)
    (hdead : d.suspectThreshold ≤ d.deadThreshold) (now : ℚ) :
    Silence.state d ⟨now, []⟩ = ⟨.alive, now, 0⟩ := by
  show (⟨statusOf d.suspectThreshold d.deadThreshold 0, now, 0⟩ : NodeState) = _
  unfold statusOf
  rw [if_neg (by omega), if_neg (by omega)]

theorem knows_register (hsuspect : 1 ≤ d.suspectThreshold)
    (hdead : d.suspectThreshold ≤ d.deadThreshold) (h : Knows d heard) (now : ℚ)
    (nodeId : String) :
    d.registerNode now nodeId = { d with nodes := (d.registerNode now nodeId).nodes } ∧
      Knows (d.registerNode now nodeId)
        (fun n => Silence.hear d.nodeId n (heard n) (.register now nodeId)) ∧
      Reports d (d.registerNode now nodeId) [] := by
  have hkeys : nodeId ∉ d.nodes.keys ↔ heard nodeId = none := by
    rw [Dict.mem_keys_iff, h nodeId]
    cases heard nodeId <;> simp
  unfold registerNode
  split
  · rename_i hfresh
    have hnew : heard nodeId = none := hkeys.mp hfresh.2
    refine ⟨rfl, fun n => ?_, fun n => ?_⟩
    · show (d.nodes.set nodeId _).get? n = (Silence.hear ..).map (Silence.state d)
      rw [Dict.get?_set, Silence.hear]
      by_cases heq : nodeId = n
      · subst heq
        rw [if_pos rfl, if_pos ⟨rfl, hfresh.1, hnew⟩, Option.map_some, state_fresh hsuspect hdead]
      · rw [if_neg heq, if_neg fun hn => heq hn.1]
        exact h n
    · show [] = changed n (d.getNodeStatus n) (((d.nodes.set nodeId _).get? n).map _)
      rw [Dict.get?_set]
      by_cases heq : nodeId = n
      · subst heq
        rw [h.status, hnew]
        rfl
      · rw [if_neg heq]
        exact (changed_self n _).symm
  · rename_i hold
    refine ⟨rfl, fun n => ?_, reports_of_status fun _ => rfl⟩
    show d.nodes.get? n = (Silence.hear ..).map (Silence.state d)
    rw [Silence.hear, if_neg]
    · exact h n
    · rintro ⟨rfl, hown, hnone⟩
      exact hold ⟨hown, hkeys.mpr hnone⟩

theorem knows_heartbeat (hsuspect : 1 ≤ d.suspectThreshold)
    (hdead : d.suspectThreshold ≤ d.deadThreshold) (h : Knows d heard) (now : ℚ)
    (nodeId : String) :
    (d.recordHeartbeat now nodeId).1 =
        { d with nodes := (d.recordHeartbeat now nodeId).1.nodes } ∧
      Knows (d.recordHeartbeat now nodeId).1
        (fun n => Silence.hear d.nodeId n (heard n) (.heartbeat now nodeId)) ∧
      Reports d (d.recordHeartbeat now nodeId).1 (d.recordHeartbeat now nodeId).2.toList := by
  have hheard := h nodeId
  cases hget : d.nodes.get? nodeId with
  | none =>
    refine ⟨by rw [recordHeartbeat_unknown hget], fun n => ?_, d.reports_recordHeartbeat now nodeId⟩
    rw [recordHeartbeat_unknown hget]
    show d.nodes.get? n = (Silence.hear ..).map (Silence.state d)
    rw [Silence.hear]
    by_cases heq : nodeId = n
    · subst heq
      rw [if_pos rfl, Option.map_eq_none_iff.mp (hheard.symm.trans hget)]
      exact hget
    · rw [if_neg heq]
      exact h n
  | some old =>
    have hs := recordHeartbeat_known hget now
    have hsame : (d.recordHeartbeat now nodeId).1 =
        { d with nodes := (d.recordHeartbeat now nodeId).1.nodes } := by
      rw [hs.result]
    refine ⟨hsame, fun n => ?_, d.reports_recordHeartbeat now nodeId⟩
    rw [hs.get?, hsame, state_of_same]
    show _ = (Silence.hear ..).map (Silence.state d)
    rw [Silence.hear]
    by_cases heq : nodeId = n
    · subst heq
      obtain ⟨s, hs, -⟩ := Option.map_eq_some_iff.mp (hheard.symm.trans hget)
      rw [if_pos rfl, if_pos rfl, hs, Option.map_some, Option.map_some,
        state_fresh hsuspect hdead]
    · rw [if_neg heq, if_neg heq]
      exact h n

theorem knows_check (hinterval : 0 < d.heartbeatInterval) (h : Knows d heard) (now : ℚ) :
    ∃ r, d.checkNodes now = some r ∧ r.1 = { d with nodes := r.1.nodes } ∧
      Knows r.1 (fun n => Silence.hear d.nodeId n (heard n) (.check now)) ∧ Reports d r.1 r.2 := by
  obtain ⟨r, hr, hchecks⟩ := checkRounds_checks hinterval.ne' now d.nodes.keys_nodup
  refine ⟨r, hr, hchecks.same, fun n => ?_, hchecks.reports⟩
  have hget : r.1.nodes.get? n = (d.nodes.get? n).map (d.checkedState now) := by
    rw [hchecks.get?]
    split
    · rfl
    · rename_i hn
      rw [Dict.mem_keys_iff, not_exists] at hn
      rw [Option.eq_none_iff_forall_ne_some.mpr hn]
      rfl
  rw [hget, h n, hchecks.same, state_of_same]
  show _ = ((heard n).map _).map _
  rw [Option.map_map, Option.map_map]
  exact congrArg (fun f => (heard n).map f) (funext fun s => checkedState_state now s)

/-- What a call does to a detector that knows what there is to know. -/
theorem knows_call (hinterval : 0 < d.heartbeatInterval) (hsuspect : 1 ≤ d.suspectThreshold)
    (hdead : d.suspectThreshold ≤ d.deadThreshold) (h : Knows d heard) (c : DetectorCall) :
    ∃ r, d.call c = some r ∧ r.1 = { d with nodes := r.1.nodes } ∧
      Knows r.1 (fun n => Silence.hear d.nodeId n (heard n) c) ∧ Reports d r.1 r.2 := by
  cases c with
  | register now nodeId => exact ⟨_, rfl, knows_register hsuspect hdead h now nodeId⟩
  | heartbeat now nodeId => exact ⟨_, rfl, knows_heartbeat hsuspect hdead h now nodeId⟩
  | check now => exact knows_check hinterval h now

theorem knows_run (hinterval : 0 < d.heartbeatInterval) (hsuspect : 1 ≤ d.suspectThreshold)
    (hdead : d.suspectThreshold ≤ d.deadThreshold) (h : Knows d heard)
    (calls : List DetectorCall) :
    ∃ d', Transition.run step d calls = some d' ∧ d' = { d with nodes := d'.nodes } ∧
      Knows d' fun n => calls.foldl (Silence.hear d.nodeId n) (heard n) := by
  induction calls generalizing d heard with
  | nil => exact ⟨d, rfl, rfl, h⟩
  | cons c calls ih =>
    obtain ⟨⟨d₁, changes⟩, hcall, hsame, hknows, -⟩ := knows_call hinterval hsuspect hdead h c
    have hd₁ : d₁ = { d with nodes := d₁.nodes } := hsame
    have hstep : step d c = some d₁ := by
      unfold step
      rw [hcall]
      rfl
    obtain ⟨d', hrun, hd', hend⟩ := ih (d := d₁) (by rw [hd₁]; exact hinterval)
      (by rw [hd₁]; exact hsuspect) (by rw [hd₁]; exact hdead) hknows
    refine ⟨d', (Transition.run_of_step hstep calls).trans hrun, by rw [hd', hd₁], ?_⟩
    have hown : d₁.nodeId = d.nodeId := by rw [hd₁]
    rw [hown] at hend
    exact hend

/-- After any calls, the status of every registered node is read off its longest silence, and the
    next call reports each change of a status once. -/
theorem status_exact (own : String) {heartbeatInterval : ℚ} {suspectThreshold deadThreshold : ℤ}
    (hinterval : 0 < heartbeatInterval) (hsuspect : 1 ≤ suspectThreshold)
    (hdead : suspectThreshold ≤ deadThreshold) (calls : List DetectorCall) :
    ∃ d, Transition.run step (boot own heartbeatInterval suspectThreshold deadThreshold) calls =
        some d ∧
      (∀ n, d.getNodeStatus n = (silence own n calls).map fun s =>
        statusOf suspectThreshold deadThreshold (s.longest heartbeatInterval)) ∧
      ∀ c, ∃ d' changes, d.call c = some (d', changes) ∧ Reports d d' changes := by
  have hboot : Knows (boot own heartbeatInterval suspectThreshold deadThreshold)
      (fun _ => none) := fun _ => rfl
  obtain ⟨d, hrun, hsame, hknows⟩ := knows_run hinterval hsuspect hdead hboot calls
  refine ⟨d, hrun, fun n => ?_, fun c => ?_⟩
  · rw [hknows.status, hsame]
    rfl
  · obtain ⟨r, hcall, -, -, hreports⟩ := knows_call (by rw [hsame]; exact hinterval)
      (by rw [hsame]; exact hsuspect) (by rw [hsame]; exact hdead) hknows c
    exact ⟨r.1, r.2, hcall, hreports⟩

/-- A check after three and a half intervals; then the clock steps back. -/
theorem status_exact_steppedBack :
    ∃ d, Transition.run step (boot "a" 1 3 5)
        [.register 0 "b", .heartbeat 1 "b", .check (9 / 2), .check (-1), .check 5] = some d ∧
      d.getNodeStatus "b" = some .suspected ∧
      ∀ c, ∃ d' changes, d.call c = some (d', changes) ∧ Reports d d' changes := by
  have hinterval : (0 : ℚ) < 1 := by decide +kernel
  have hsuspect : (1 : ℤ) ≤ 3 := by decide
  have hdead : (3 : ℤ) ≤ 5 := by decide
  obtain ⟨d, hrun, hstatus, hreports⟩ := status_exact "a" hinterval hsuspect hdead
    [.register 0 "b", .heartbeat 1 "b", .check (9 / 2), .check (-1), .check 5]
  refine ⟨d, hrun, ?_, hreports⟩
  rw [hstatus]
  decide +kernel

end FailureDetector

end Pynchronize
