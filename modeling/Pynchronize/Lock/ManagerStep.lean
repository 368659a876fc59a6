import Pynchronize.Lock.Manager

/-!
# The cases of a step of the LockManagers

`Started` lists how a call starts, `Stepped` what each possible action does.
-/

namespace Pynchronize.LockCluster

open Lib

variable {N C R Rid : Type*} [DecidableEq N] [DecidableEq C] [DecidableEq R] [DecidableEq Rid]
  {cfg : LockConfig N C R Rid}

/-- A call starts: it proposes, it is forwarded, or it is denied at once. -/
inductive Started (cfg : LockConfig N C R Rid) (s : LockCluster N C R Rid) (env : Env C ℚ) (i : N)
    (op : LockOp) (c : C) (r : R) : LockCluster N C R Rid → Prop
  | proposes {raft : Cluster N (Proposal C R Rid)} (hi : i ∈ cfg.nodes)
      (hleader : (s.raft.nodes i).state = .leader)
      (hraft : s.raft.step cfg.toConfig
        (.propose i ⟨s.calls.length, (s.proposalArgs cfg env i op c r).command⟩) = some raft) :
      Started cfg s env i op c r
        ({ s.proposing env (s.proposalArgs cfg env i op c r) with raft := raft }.callbacks env i
          (s.raft.nodes i) (raft.nodes i))
  | forwards {leader : N} (hi : i ∈ cfg.nodes) (hleader : leader ∈ cfg.nodes) :
      Started cfg s env i op c r
        (s.addCall ⟨⟨i, op, c, r, none, none⟩, .forwarding, none, some (leader, .inFlight)⟩)
  | denied (hi : i ∈ cfg.nodes) :
      Started cfg s env i op c r
        (s.addCall ⟨⟨i, op, c, r, none, none⟩, .returned .denied, none, none⟩)

inductive Stepped (cfg : LockConfig N C R Rid) (s : LockCluster N C R Rid) :
    Env C ℚ × LockAction N C R Rid → LockCluster N C R Rid → Prop
  | raft {env : Env C ℚ} {a : Action N (Proposal C R Rid)} {i : N}
      {raft : Cluster N (Proposal C R Rid)} (hdriven : a.driven = true)
      (hcrash : a.crashFree = true) (hactor : s.raft.actor a = some i)
      (hraft : s.raft.step cfg.toConfig a = some raft) :
      Stepped cfg s (env, .raft a)
        ({ s with raft := raft }.callbacks env i (s.raft.nodes i) (raft.nodes i))
  | restart {env : Env C ℚ} {a : Action N (Proposal C R Rid)} {i : N}
      {raft : Cluster N (Proposal C R Rid)} (hcrash : a.crashFree = false)
      (hactor : s.raft.actor a = some i) (hraft : s.raft.step cfg.toConfig a = some raft) :
      Stepped cfg s (env, .raft a) ({ s with raft := raft }.restart i)
  | acquireLock {env : Env C ℚ} {i : N} {c : C} {r : R} {lockType : LockType}
      {s' : LockCluster N C R Rid} (h : Started cfg s env i (.acquire lockType) c r s') :
      Stepped cfg s (env, .acquireLock i c r lockType) s'
  | releaseLock {env : Env C ℚ} {i : N} {c : C} {r : R} {s' : LockCluster N C R Rid}
      (h : Started cfg s env i .release c r s') : Stepped cfg s (env, .releaseLock i c r) s'
  | proposed {env : Env C ℚ} {k task : ℕ} {call : Call N C R Rid} (hk : s.calls[k]? = some call)
      (hstage : call.stage = .proposing task) :
      Stepped cfg s (env, .proposed k) (s.proposed k call)
  | proposeRaises {env : Env C ℚ} {k task : ℕ} {call : Call N C R Rid}
      (hk : s.calls[k]? = some call) (hstage : call.stage = .proposing task) :
      Stepped cfg s (env, .proposeRaises k) (s.setStage k call .raised)
  | wake {env : Env C ℚ} {k : ℕ} {call : Call N C R Rid} {result : LockStatus}
      (hk : s.calls[k]? = some call) (hstage : call.stage = .waiting)
      (hfuture : call.future = some result) : Stepped cfg s (env, .wake k) (s.finish k call result)
  | timeout {env : Env C ℚ} {k : ℕ} {call : Call N C R Rid} (hk : s.calls[k]? = some call)
      (hstage : call.stage = .waiting) : Stepped cfg s (env, .timeout k) (s.timeout k call)
  | deliver {env : Env C ℚ} {k : ℕ} {call : Call N C R Rid} {target : N}
      {s' : LockCluster N C R Rid} (hk : s.calls[k]? = some call)
      (hmessage : call.message = some (target, .inFlight))
      (h : Started cfg s env target call.args.op call.args.clientId call.args.resourceId s') :
      Stepped cfg s (env, .deliver k) (s'.setDelivery k (.handled s.calls.length))
  | lose {env : Env C ℚ} {k : ℕ} {call : Call N C R Rid} {target : N}
      (hk : s.calls[k]? = some call) (hmessage : call.message = some (target, .inFlight)) :
      Stepped cfg s (env, .lose k) (s.setDelivery k .lost)
  | response {env : Env C ℚ} {k j : ℕ} {call child : Call N C R Rid} {target : N}
      {status : LockStatus} (hk : s.calls[k]? = some call) (hstage : call.stage = .forwarding)
      (hmessage : call.message = some (target, .handled j)) (hj : s.calls[j]? = some child)
      (hchild : child.stage = .returned status) :
      Stepped cfg s (env, .response k) (s.setStage k call (.returned status))
  | noResponse {env : Env C ℚ} {k : ℕ} {call : Call N C R Rid} (hk : s.calls[k]? = some call)
      (hstage : call.stage = .forwarding) :
      Stepped cfg s (env, .noResponse k) (s.setStage k call (.returned .denied))

theorem started {s s' : LockCluster N C R Rid} {env : Env C ℚ} {i : N} {op : LockOp} {c : C} {r : R}
    (h : s.startCall cfg env i op c r = some s') : Started cfg s env i op c r s' := by
  unfold startCall at h
  split at h
  · rename_i hi
    split at h
    · rename_i hleader
      have hraftEq : ∀ args, (s.proposing env args).raft = s.raft := by
        intro args
        unfold proposing
        cases args.requestId <;> rfl
      simp only [raftStep, Cluster.actor, hraftEq] at h
      split at h
      · rename_i raft hsome hraft
        obtain rfl := Option.some.inj hsome
        obtain rfl := Option.some.inj h
        exact .proposes hi hleader hraft
      · cases h
    · dsimp only at h
      split at h
      · split at h
        · obtain rfl := Option.some.inj h
          rename_i hleader
          exact .forwards hi hleader
        · obtain rfl := Option.some.inj h
          exact .denied hi
      · obtain rfl := Option.some.inj h
        exact .denied hi
  · cases h

theorem stepped {s s' : LockCluster N C R Rid} {x : Env C ℚ × LockAction N C R Rid}
    (h : s.step cfg x = some s') : Stepped cfg s x s' := by
  obtain ⟨env, a⟩ := x
  cases a with
  | raft a =>
    simp only [step] at h
    split at h
    · rename_i hdriven
      unfold raftStep at h
      split at h
      · rename_i hactor hraft
        split at h
        · obtain rfl := Option.some.inj h
          rename_i hcrash
          exact .raft hdriven hcrash hactor hraft
        · obtain rfl := Option.some.inj h
          rename_i hcrash
          exact .restart (by simpa using hcrash) hactor hraft
      · cases h
    · cases h
  | acquireLock i c r lockType => exact .acquireLock (started h)
  | releaseLock i c r => exact .releaseLock (started h)
  | proposed k =>
    simp only [step] at h
    split at h
    · rename_i hk
      split at h
      · rename_i hstage
        split at h
        · obtain rfl := Option.some.inj h
          exact .proposed hk hstage
        · cases h
      · cases h
    · cases h
  | proposeRaises k =>
    simp only [step] at h
    split at h
    · rename_i hk
      split at h
      · rename_i hstage
        split at h
        · obtain rfl := Option.some.inj h
          exact .proposeRaises hk hstage
        · cases h
      · cases h
    · cases h
  | wake k =>
    simp only [step] at h
    split at h
    · rename_i hk
      split at h
      · obtain rfl := Option.some.inj h
        rename_i hstage hfuture
        exact .wake hk hstage hfuture
      · cases h
    · cases h
  | timeout k =>
    simp only [step] at h
    split at h
    · rename_i hk
      split at h
      · obtain rfl := Option.some.inj h
        rename_i hstage
        exact .timeout hk hstage
      · cases h
    · cases h
  | deliver k =>
    simp only [step] at h
    split at h
    · rename_i hk
      split at h
      · rename_i hmessage
        obtain ⟨s'', hs'', rfl⟩ := Option.map_eq_some_iff.mp h
        exact .deliver hk hmessage (started hs'')
      · cases h
    · cases h
  | lose k =>
    simp only [step] at h
    split at h
    · rename_i hk
      split at h
      · obtain rfl := Option.some.inj h
        rename_i hmessage
        exact .lose hk hmessage
      · cases h
    · cases h
  | response k =>
    simp only [step] at h
    split at h
    · rename_i hk
      split at h
      · rename_i hstage hmessage
        split at h
        · rename_i hchild
          obtain ⟨child, hj, hchild⟩ := Option.map_eq_some_iff.mp hchild
          obtain rfl := Option.some.inj h
          exact .response hk hstage hmessage hj hchild
        · cases h
      · cases h
    · cases h
  | noResponse k =>
    simp only [step] at h
    split at h
    · rename_i hk
      split at h
      · obtain rfl := Option.some.inj h
        rename_i hstage
        exact .noResponse hk hstage
      · cases h
    · cases h

end Pynchronize.LockCluster
