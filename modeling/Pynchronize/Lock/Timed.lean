import Pynchronize.Lock.Commit
import Pynchronize.Raft.Timed

/-!
# The LockManagers on a clock

The clock of the cluster, with the start of every call beside it. `CallStep`
says what one step can make of a call, `NewCall` how a call starts.
-/

namespace Pynchronize

open Lib

variable {N C R Rid : Type*}

structure TimedLocks (N C R Rid : Type*) where
  locks : LockCluster N C R Rid
  clock : Clock
  startedAt : ℕ → ℚ

/-- What an action reads from the clock of the event loop. -/
def LockAction.reads : LockAction N C R Rid → Option ℚ
  | .raft a => a.reads
  | _ => none

def LockAction.beginsRound (a : LockAction N C R Rid) (k : ℕ) : Bool :=
  match a with
  | .raft a => a.beginsRound k
  | _ => false

/-! ## What a step makes of a call -/

namespace LockCluster

/-- Stage and message of a call after a step. -/
inductive CallStep (s : LockCluster N C R Rid) (a : LockAction N C R Rid) (k : ℕ)
    (call : Call N C R Rid) : CallStage → Option (N × Delivery) → Prop
  | stays : CallStep s a k call call.stage call.message
  | crashes : CallStep s a k call call.crash.stage call.message
  | waits (ha : a = .proposed k) : CallStep s a k call .waiting call.message
  | returns {status : LockStatus} (h : Returns s k call a status) :
      CallStep s a k call (.returned status) call.message
  | raises : CallStep s a k call .raised call.message
  | delivered {target : N} (ha : a = .deliver k)
      (hmessage : call.message = some (target, .inFlight)) :
      CallStep s a k call call.stage (some (target, .handled s.calls.length))
  | lost {target : N} (hmessage : call.message = some (target, .inFlight)) :
      CallStep s a k call call.stage (some (target, .lost))

variable [DecidableEq N] [DecidableEq C] [DecidableEq R] [DecidableEq Rid]
  {cfg : LockConfig N C R Rid} {s s' : LockCluster N C R Rid}

/-- A call that starts. -/
inductive NewCall (cfg : LockConfig N C R Rid) (s : LockCluster N C R Rid)
    (raft : Cluster N (Proposal C R Rid)) : Call N C R Rid → Prop
  | proposes {args : CallArgs N C R Rid} {p : Proposal C R Rid} (hindex : args.index.isSome = true)
      (hraft : s.raft.step cfg.toConfig (.propose args.node p) = some raft) :
      NewCall cfg s raft ⟨args, .proposing s.raft.tasks.length, none, none⟩
  | forwards {args : CallArgs N C R Rid} {leader : N} (hindex : args.index = none) :
      NewCall cfg s raft ⟨args, .forwarding, none, some (leader, .inFlight)⟩
  | denied {args : CallArgs N C R Rid} (hindex : args.index = none) :
      NewCall cfg s raft ⟨args, .returned .denied, none, none⟩

theorem started_outlines {env : Env C ℚ} {i : N} {op : LockOp} {c : C} {r : R}
    (h : Started cfg s env i op c r s') :
    ∃ call, s'.outlines = s.outlines ++ [call.outline] ∧ call.args.node = i ∧
      NewCall cfg s s'.raft call := by
  cases h with
  | @proposes raft hi hleader hraft =>
    refine ⟨⟨s.proposalArgs cfg env i op c r, .proposing s.raft.tasks.length, none, none⟩, ?_, rfl,
      .proposes rfl (p := ⟨s.calls.length, (s.proposalArgs cfg env i op c r).command⟩) ?_⟩
    · rw [outlines_callbacks]
      show (s.proposing env (s.proposalArgs cfg env i op c r)).calls.map Call.outline = _
      rw [calls_proposing, List.map_append]
      rfl
    · rw [raft_callbacks]
      exact hraft
  | forwards => exact ⟨_, List.map_append, rfl, .forwards rfl⟩
  | denied => exact ⟨_, List.map_append, rfl, .denied rfl⟩

omit [DecidableEq N] [DecidableEq C] [DecidableEq R] [DecidableEq Rid] in
theorem CallStep.of_outline {a : LockAction N C R Rid} {k : ℕ} {call call' : Call N C R Rid}
    (h : call'.outline = call.outline) : CallStep s a k call call'.stage call'.message := by
  have hstage : call'.stage = call.stage := congrArg (·.2.1) h
  have hmessage : call'.message = call.message := congrArg (·.2.2) h
  rw [hstage, hmessage]
  exact .stays

omit [DecidableEq N] [DecidableEq C] [DecidableEq R] [DecidableEq Rid] in
theorem callStep_of_outlines {a : LockAction N C R Rid} (h : s'.outlines = s.outlines) {k : ℕ}
    {call : Call N C R Rid} (hk : s.calls[k]? = some call) :
    ∃ call', s'.calls[k]? = some call' ∧ call'.args = call.args ∧
      CallStep s a k call call'.stage call'.message := by
  obtain ⟨call', hk', heq⟩ := exists_outline h.symm hk
  exact ⟨call', hk', congrArg (·.1) heq, .of_outline heq⟩

omit [DecidableEq N] [DecidableEq C] [DecidableEq R] [DecidableEq Rid] in
theorem callStep_setCall {a : LockAction N C R Rid} {s₁ : LockCluster N C R Rid} {j k : ℕ}
    {call₁ call₂ call : Call N C R Rid} (hj : s.calls[j]? = some call₁)
    (hcalls : s₁.calls = s.calls) (hargs : call₂.args = call₁.args)
    (hstep : CallStep s a j call₁ call₂.stage call₂.message) (hk : s.calls[k]? = some call) :
    ∃ call', (s₁.setCall j call₂).calls[k]? = some call' ∧ call'.args = call.args ∧
      CallStep s a k call call'.stage call'.message := by
  have hset : (s₁.setCall j call₂).calls = s.calls.set j call₂ :=
    congrArg (List.set · j call₂) hcalls
  rw [hset]
  rcases eq_or_ne j k with rfl | hne
  · obtain rfl := Option.some.inj (hj.symm.trans hk)
    exact ⟨call₂, getElem?_set_of_some hk _, hargs, hstep⟩
  · exact ⟨call, (List.getElem?_set_ne hne).trans hk, rfl, .stays⟩

theorem callStep_started {env : Env C ℚ} {i : N} {op : LockOp} {c : C} {r : R}
    {a : LockAction N C R Rid} (h : Started cfg s env i op c r s') {k : ℕ} {call : Call N C R Rid}
    (hk : s.calls[k]? = some call) :
    ∃ call', s'.calls[k]? = some call' ∧ call'.args = call.args ∧
      CallStep s a k call call'.stage call'.message := by
  obtain ⟨call', hk', heq⟩ := outline_started h hk
  exact ⟨call', hk', congrArg (·.1) heq, .of_outline heq⟩

theorem callStep_step {x : Env C ℚ × LockAction N C R Rid} (h : s.step cfg x = some s') {k : ℕ}
    {call : Call N C R Rid} (hk : s.calls[k]? = some call) :
    ∃ call', s'.calls[k]? = some call' ∧ call'.args = call.args ∧
      CallStep s x.2 k call call'.stage call'.message := by
  cases stepped h with
  | @raft env a i raft =>
    exact callStep_of_outlines (s := s) (outlines_callbacks _ _ _ _ { s with raft := raft }) hk
  | @restart env a i raft =>
    refine ⟨if call.args.node = i then call.crash else call, ?_, ?_⟩
    · show (s.calls.map _)[k]? = _
      rw [List.getElem?_map, hk]
      rfl
    · split
      · refine ⟨?_, ?_⟩
        · exact (Call.kept_crash call).args
        · rw [Call.message_crash]
          exact .crashes
      · exact ⟨rfl, .stays⟩
  | acquireLock hs => exact callStep_started hs hk
  | releaseLock hs => exact callStep_started hs hk
  | @proposed env j task call₁ hj hstage =>
    unfold proposed
    split
    · rename_i hop
      exact callStep_setCall hj rfl rfl (.returns (.released hop)) hk
    · rename_i lockType hop
      split
      · rename_i result hfuture
        obtain ⟨s₁, hcalls, heq⟩ := calls_finish s j call₁ result
        rw [heq]
        exact callStep_setCall hj hcalls rfl (.returns (.proposed hop hstage hfuture)) hk
      · exact callStep_setCall hj rfl rfl (.waits rfl) hk
  | proposeRaises hj => exact callStep_setCall hj rfl rfl .raises hk
  | @wake env j call₁ result hj hstage hfuture =>
    obtain ⟨s₁, hcalls, heq⟩ := calls_finish s j call₁ result
    rw [heq]
    exact callStep_setCall hj hcalls rfl (.returns (.wake hstage hfuture)) hk
  | @timeout env j call₁ hj hstage =>
    obtain ⟨m, -, -, heq⟩ := timeout_eq s j call₁
    rw [heq]
    have hcalls : (s.setManager call₁.args.node m).calls = s.calls := rfl
    exact callStep_setCall hj hcalls rfl (.returns (.timeout hstage)) hk
  | @deliver env j call₁ target s₁ hj hmessage hs =>
    obtain ⟨call₂, hj₂, heq₂⟩ := outline_started hs hj
    obtain ⟨call', hk', heq⟩ := outline_started hs hk
    rw [setDelivery_eq hj₂]
    rcases eq_or_ne j k with rfl | hne
    · obtain rfl := Option.some.inj (hj.symm.trans hk)
      refine ⟨_, getElem?_set_of_some hj₂ _, congrArg (·.1) heq₂, ?_⟩
      have hstage : call₂.stage = call₁.stage := congrArg (·.2.1) heq₂
      have hmessage₂ : call₂.message = some (target, .inFlight) :=
        (congrArg (·.2.2) heq₂).trans hmessage
      have hdelivered := CallStep.delivered (s := s) (a := .deliver j) rfl hmessage
      rw [← hstage] at hdelivered
      simpa only [Call.setDelivery, hmessage₂, Option.map_some] using hdelivered
    · exact ⟨call', (List.getElem?_set_ne hne).trans hk', congrArg (·.1) heq, .of_outline heq⟩
  | @lose env j call₁ target hj hmessage =>
    rw [setDelivery_eq hj]
    refine callStep_setCall hj rfl rfl ?_ hk
    have hlost := CallStep.lost (s := s) (a := .lose j) (k := j) hmessage
    simpa only [Call.setDelivery, hmessage, Option.map_some] using hlost
  | response hj hstage hmessage hchild hreturned =>
    exact callStep_setCall hj rfl rfl (.returns (.response hstage hmessage hchild hreturned)) hk
  | noResponse hj hstage => exact callStep_setCall hj rfl rfl (.returns (.noResponse hstage)) hk

section

omit [DecidableEq N] [DecidableEq C] [DecidableEq R] [DecidableEq Rid]

variable {a : LockAction N C R Rid} {k j : ℕ} {call : Call N C R Rid} {stage : CallStage}
  {message : Option (N × Delivery)}

theorem CallStep.proposing (h : CallStep s a k call stage message)
    (hstage : stage = .proposing j) : call.stage = .proposing j := by
  cases h with
  | crashes => exact absurd (Or.inr ⟨j, hstage⟩) (Call.not_pending_crash call)
  | stays => exact hstage
  | delivered => exact hstage
  | lost => exact hstage
  | _ => cases hstage

theorem CallStep.waiting (h : CallStep s a k call stage message) (hstage : stage = .waiting) :
    call.stage = .waiting ∨ a = .proposed k := by
  cases h with
  | crashes => exact absurd (Or.inl hstage) (Call.not_pending_crash call)
  | waits ha => exact Or.inr ha
  | stays => exact Or.inl hstage
  | delivered => exact Or.inl hstage
  | lost => exact Or.inl hstage
  | _ => cases hstage

theorem CallStep.returned {status : LockStatus} (h : CallStep s a k call stage message)
    (hstage : stage = .returned status) :
    call.stage = .returned status ∨ Returns s k call a status := by
  cases h with
  | crashes =>
    unfold Call.crash at hstage
    split at hstage
    · exact Or.inl hstage
    · exact Or.inl hstage
    · cases hstage
  | returns h =>
    obtain rfl := CallStage.returned.inj hstage
    exact Or.inr h
  | stays => exact Or.inl hstage
  | delivered => exact Or.inl hstage
  | lost => exact Or.inl hstage
  | _ => cases hstage

theorem CallStep.forwarding (h : CallStep s a k call stage message)
    (hstage : stage = .forwarding) : call.stage = .forwarding := by
  cases h with
  | crashes => exact (Call.kept_crash call).forwarding hstage
  | stays => exact hstage
  | delivered => exact hstage
  | lost => exact hstage
  | _ => cases hstage

theorem CallStep.handled {target : N} (h : CallStep s a k call stage message)
    (hmessage : message = some (target, .handled j)) :
    call.message = some (target, .handled j) ∨
      a = .deliver k ∧ call.message = some (target, .inFlight) ∧ j = s.calls.length := by
  cases h with
  | delivered ha hinFlight =>
    obtain ⟨rfl, hj⟩ := Prod.mk.inj (Option.some.inj hmessage)
    exact Or.inr ⟨ha, hinFlight, (Delivery.handled.inj hj).symm⟩
  | lost => cases hmessage
  | _ => exact Or.inl hmessage

end

/-! ## New calls -/

omit [DecidableEq N] [DecidableEq C] [DecidableEq R] [DecidableEq Rid] in
theorem length_of_outlines {call : Call N C R Rid} (h : s'.outlines = s.outlines ++ [call.outline])
    {k : ℕ} {call' : Call N C R Rid} (hk : s.calls[k]? = none) (hk' : s'.calls[k]? = some call') :
    k = s.calls.length ∧ call'.outline = call.outline := by
  have hget : s'.outlines[k]? = some call'.outline := by
    unfold outlines
    rw [List.getElem?_map, hk']
    rfl
  rw [h] at hget
  rcases getElem?_concat_cases hget with hold | ⟨hlength, heq⟩
  · unfold outlines at hold
    rw [List.getElem?_map, hk] at hold
    cases hold
  · exact ⟨hlength.trans (List.length_map _), heq⟩

theorem new_call {x : Env C ℚ × LockAction N C R Rid} (h : s.step cfg x = some s') {k : ℕ}
    {call' : Call N C R Rid} (hk : s.calls[k]? = none) (hk' : s'.calls[k]? = some call') :
    ∃ call, NewCall cfg s s'.raft call ∧ call'.outline = call.outline := by
  have hge := List.getElem?_eq_none_iff.mp hk
  have hlt' := (List.getElem?_eq_some_iff.mp hk').1
  have old : s'.calls.length = s.calls.length →
      ∃ call, NewCall cfg s s'.raft call ∧ call'.outline = call.outline := fun hlength => by omega
  have started : ∀ {env : Env C ℚ} {i : N} {op : LockOp} {c : C} {r : R},
      Started cfg s env i op c r s' →
      ∃ call, NewCall cfg s s'.raft call ∧ call'.outline = call.outline := by
    intro env i op c r hs
    obtain ⟨call, houtlines, -, hnew⟩ := started_outlines hs
    exact ⟨call, hnew, (length_of_outlines houtlines hk hk').2⟩
  cases stepped h with
  | @raft env a i raft =>
    refine old ?_
    have heq := outlines_callbacks env i (s.raft.nodes i) (raft.nodes i) { s with raft := raft }
    have hlength := congrArg List.length heq
    unfold outlines at hlength
    rwa [List.length_map, List.length_map] at hlength
  | restart => exact old (List.length_map ..)
  | acquireLock hs => exact started hs
  | releaseLock hs => exact started hs
  | @proposed env j task call₁ =>
    refine old ?_
    unfold proposed
    split
    · exact List.length_set ..
    · split
      · obtain ⟨s₁, hcalls, heq⟩ := calls_finish s j call₁ _
        rw [heq, ← hcalls]
        exact List.length_set ..
      · exact List.length_set ..
  | proposeRaises => exact old (List.length_set ..)
  | @wake env j call₁ result =>
    refine old ?_
    obtain ⟨s₁, hcalls, heq⟩ := calls_finish s j call₁ result
    rw [heq, ← hcalls]
    exact List.length_set ..
  | @timeout env j call₁ =>
    refine old ?_
    obtain ⟨m, -, -, heq⟩ := timeout_eq s j call₁
    rw [heq]
    exact List.length_set ..
  | @deliver env j call₁ target s₁ hj hmessage hs =>
    obtain ⟨call, houtlines, -, hnew⟩ := started_outlines hs
    have hne : j ≠ k := by
      rintro rfl
      rw [hk] at hj
      cases hj
    have hk₁ : s₁.calls[k]? = some call' := (List.getElem?_modify_ne _ _ hne).symm.trans hk'
    exact ⟨call, hnew, (length_of_outlines houtlines hk hk₁).2⟩
  | lose => exact old (List.length_modify ..)
  | response => exact old (List.length_set ..)
  | noResponse => exact old (List.length_set ..)

/-- A LOCK_REQUEST starts a call on the node it is for. -/
theorem exists_child {env : Env C ℚ} {k : ℕ} (h : s.step cfg (env, .deliver k) = some s')
    {call : Call N C R Rid} {target : N} (hk : s.calls[k]? = some call)
    (hmessage : call.message = some (target, .inFlight)) :
    ∃ child, s'.calls[s.calls.length]? = some child ∧ child.args.node = target := by
  cases stepped h with
  | @deliver env k call' target' s₁ hk' hmessage' hs =>
    obtain rfl := Option.some.inj (hk.symm.trans hk')
    obtain ⟨rfl, -⟩ := Prod.mk.inj (Option.some.inj (hmessage.symm.trans hmessage'))
    obtain ⟨child, houtlines, hnode, -⟩ := started_outlines hs
    have hlength : s.outlines.length = s.calls.length := List.length_map _
    have hget : (s₁.calls[s.calls.length]?).map Call.outline = some child.outline := by
      rw [← List.getElem?_map, ← hlength]
      show s₁.outlines[_]? = _
      rw [houtlines]
      exact List.getElem?_concat_length
    obtain ⟨child', hchild, heq⟩ := Option.map_eq_some_iff.mp hget
    have hne : k ≠ s.calls.length := ((List.getElem?_eq_some_iff.mp hk).1).ne
    exact ⟨child', (List.getElem?_modify_ne _ _ hne).trans hchild,
      (congrArg (·.1.node) heq).trans hnode⟩

theorem raft_of_raft {env : Env C ℚ} {a : Action N (Proposal C R Rid)}
    (h : s.step cfg (env, .raft a) = some s') : s.raft.step cfg.toConfig a = some s'.raft := by
  cases stepped h with
  | raft hdriven hcrash hactor hraft =>
    rw [raft_callbacks]
    exact hraft
  | restart hcrash hactor hraft => exact hraft

end LockCluster

/-! ## Steps and runs -/

namespace TimedLocks

/-- The RaftNodes on the clock. -/
def raft (s : TimedLocks N C R Rid) : TimedCluster N (Proposal C R Rid) := ⟨s.locks.raft, s.clock⟩

def boot (start : N → ℚ) (now : ℚ) : TimedLocks N C R Rid :=
  ⟨LockCluster.boot start, ⟨now, fun _ => now, fun _ => now⟩, fun _ => now⟩

variable [DecidableEq N] [DecidableEq C] [DecidableEq R] [DecidableEq Rid]

def step (cfg : LockConfig N C R Rid) (s : TimedLocks N C R Rid)
    (x : ℚ × Env C ℚ × LockAction N C R Rid) : Option (TimedLocks N C R Rid) :=
  if s.clock.now ≤ x.1 ∧ ∀ now ∈ x.2.2.reads, now = x.1 then
    (s.locks.step cfg x.2).map fun locks =>
      ⟨locks, s.clock.after s.locks.raft locks.raft x.2.2.beginsRound x.1,
        fun k => if k < s.locks.calls.length then s.startedAt k else x.1⟩
  else none

def run (cfg : LockConfig N C R Rid) (s : TimedLocks N C R Rid)
    (xs : List (ℚ × Env C ℚ × LockAction N C R Rid)) : Option (TimedLocks N C R Rid) :=
  Transition.run (step cfg) s xs

/-- `P` holds at every step of a run. -/
abbrev EachStep (cfg : LockConfig N C R Rid)
    (P : TimedLocks N C R Rid → ℚ × Env C ℚ × LockAction N C R Rid → Prop)
    (s : TimedLocks N C R Rid) (xs : List (ℚ × Env C ℚ × LockAction N C R Rid)) : Prop :=
  Transition.EachStep (step cfg) P s xs

variable {cfg : LockConfig N C R Rid} {s s' : TimedLocks N C R Rid} {t : ℚ}
  {x : Env C ℚ × LockAction N C R Rid}

/-- What a step at time `t` does to the clock and to the starts of the calls. -/
structure Ticks (s : TimedLocks N C R Rid) (t : ℚ) (a : LockAction N C R Rid)
    (s' : TimedLocks N C R Rid) : Prop where
  le : s.clock.now ≤ t
  reads : ∀ now ∈ a.reads, now = t
  clock : s'.clock = s.clock.after s.locks.raft s'.locks.raft a.beginsRound t
  old : ∀ k call, s.locks.calls[k]? = some call → s'.startedAt k = s.startedAt k
  new : ∀ k, s.locks.calls[k]? = none → s'.startedAt k = t

theorem step_cases (h : s.step cfg (t, x) = some s') :
    s.locks.step cfg x = some s'.locks ∧ Ticks s t x.2 s' := by
  obtain ⟨⟨hle, hreads⟩, hs⟩ := Option.ite_none_right_eq_some.mp h
  obtain ⟨locks, hlocks, rfl⟩ := Option.map_eq_some_iff.mp hs
  exact ⟨hlocks, hle, hreads, rfl,
    fun k call hk => if_pos (List.getElem?_eq_some_iff.mp hk).1,
    fun k hk => if_neg (Nat.not_lt.mpr (List.getElem?_eq_none_iff.mp hk))⟩

/-- A step leaves the RaftNodes as they are, or it is one of the cluster on the clock. -/
theorem raft_cases (h : s.step cfg (t, x) = some s') :
    s'.locks.raft = s.locks.raft ∧
        s'.clock = s.clock.after s.locks.raft s'.locks.raft (fun _ => false) t ∨
      ∃ a, s.raft.step cfg.toConfig (t, a) = some s'.raft ∧
        (x.2 = .raft a ∨ ∃ i p, a = .propose i p) := by
  obtain ⟨hlocks, htick⟩ := step_cases h
  have other : x.2.beginsRound = (fun _ => false) →
      (s'.locks.raft = s.locks.raft ∨ ∃ a, s.locks.raft.step cfg.toConfig a = some s'.locks.raft ∧
        ∃ i p, a = .propose i p) →
      s'.locks.raft = s.locks.raft ∧
          s'.clock = s.clock.after s.locks.raft s'.locks.raft (fun _ => false) t ∨
        ∃ a, s.raft.step cfg.toConfig (t, a) = some s'.raft ∧
          (x.2 = .raft a ∨ ∃ i p, a = .propose i p) := by
    rintro hbegins (hraft | ⟨a, hraft, i, p, rfl⟩)
    all_goals have hclock := htick.clock
    all_goals rw [hbegins] at hclock
    · exact Or.inl ⟨hraft, hclock⟩
    · exact Or.inr ⟨_, TimedCluster.step_of_cluster htick.le (fun now hnow => by cases hnow) hraft
        hclock, Or.inr ⟨i, p, rfl⟩⟩
  obtain ⟨env, b⟩ := x
  cases b with
  | raft a =>
    exact Or.inr ⟨a, TimedCluster.step_of_cluster htick.le htick.reads
      (LockCluster.raft_of_raft hlocks) htick.clock, Or.inl rfl⟩
  | _ =>
    refine other rfl ((LockCluster.raft_step hlocks).imp_right ?_)
    rintro ⟨a, hraft, ⟨heq, -⟩ | ⟨i, p, rfl, -⟩⟩
    · cases heq
    · exact ⟨_, hraft, i, p, rfl⟩

end TimedLocks

end Pynchronize
