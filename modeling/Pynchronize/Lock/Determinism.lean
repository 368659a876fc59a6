import Mathlib.Data.Rat.Defs
import Pynchronize.Lock.Replica

/-!
# Replicas of the lock table are deterministic

`_apply_command` of one LockManager, with the futures of its own callers in
`pending_requests`. What the node contributes besides the command (its clock,
the order in which it walks its sets, the futures its callers have registered)
is a `Turn`. `replicas_deterministic` says that two nodes that apply the same
commands agree on every answer, on the locks up to the stamps of the queued
requests, and on the wait-for graph.
-/

namespace Pynchronize

open Lib

/-- Request ids with the results of their futures; `none` is a future that is not done. -/
abbrev PendingRequests (Rid : Type*) := Dict Rid (Option LockStatus)

/-- The replicated state of one LockManager with `pending_requests` and the results that
    `_apply_command` has set on futures. -/
structure LocalManager (C R Rid τ : Type*) where
  table : LockTable C R τ
  pendingRequests : PendingRequests Rid
  results : List (Rid × LockStatus)

/-- One call of `_apply_command`: the command, and what the node has of its own. -/
structure Turn (C R Rid τ : Type*) where
  command : Command C R Rid
  env : Env C τ
  pendingRequests : PendingRequests Rid

variable {C R Rid τ τ' : Type*}

/-- What of a lock is the same on every replica: type, holders, and the queue as the list of
    (client, type). -/
def Lock.content (lock : Lock C R τ) : LockType × Finset C × List (C × LockType) :=
  (lock.lockType, lock.holders, lock.waiting.map fun req => (req.clientId, req.lockType))

theorem Lock.content_mapStamp (f : τ → τ') (lock : Lock C R τ) :
    (lock.mapStamp f).content = lock.content := by
  simp only [Lock.content, Lock.mapStamp, List.map_map]
  rfl

namespace LocalManager

variable [DecidableEq Rid]

/-- The future of a request is popped, and gets its result unless it is done. -/
def resolve (m : LocalManager C R Rid τ) (requestId : Rid) (status : LockStatus) :
    LocalManager C R Rid τ :=
  match m.pendingRequests.get? requestId with
  | some none =>
    { m with
      pendingRequests := m.pendingRequests.erase requestId
      results := m.results ++ [(requestId, status)] }
  | some (some _) => { m with pendingRequests := m.pendingRequests.erase requestId }
  | none => m

theorem table_resolve (m : LocalManager C R Rid τ) (requestId : Rid) (status : LockStatus) :
    (m.resolve requestId status).table = m.table := by
  unfold resolve
  split <;> rfl

variable [DecidableEq C] [DecidableEq R]

def applyAcquire (env : Env C τ) (m : LocalManager C R Rid τ) (clientId : C) (resourceId : R)
    (lockType : LockType) (requestId : Option Rid) : LocalManager C R Rid τ × LockStatus :=
  let (table, status) := m.table.applyAcquire env clientId resourceId lockType
  let m := { m with table := table }
  match status, requestId with
  | .acquired, some requestId => (m.resolve requestId .acquired, .acquired)
  | .deadlock, some requestId => (m.resolve requestId .deadlock, .deadlock)
  | _, _ => (m, status)

theorem applyAcquire_table (env : Env C τ) (m : LocalManager C R Rid τ) (c : C) (r : R)
    (ty : LockType) (requestId : Option Rid) :
    ((m.applyAcquire env c r ty requestId).1.table, (m.applyAcquire env c r ty requestId).2) =
      m.table.applyAcquire env c r ty := by
  simp only [applyAcquire]
  split
  · rename_i hst
    exact Prod.ext (table_resolve _ _ _) hst.symm
  · rename_i hst
    exact Prod.ext (table_resolve _ _ _) hst.symm
  · rfl

variable [DecidableEq τ]

def applyRelease (m : LocalManager C R Rid τ) (clientId : C) (resourceId : R) :
    LocalManager C R Rid τ × LockStatus :=
  let (table, status) := m.table.applyRelease clientId resourceId
  ({ m with table := table }, status)

def applyCommand (env : Env C τ) (m : LocalManager C R Rid τ) :
    Command C R Rid → LocalManager C R Rid τ × Option LockStatus
  | .acquire clientId resourceId lockType requestId =>
    let (m, status) := m.applyAcquire env clientId resourceId lockType requestId
    (m, some status)
  | .release clientId resourceId =>
    let (m, status) := m.applyRelease clientId resourceId
    (m, some status)
  | .other => (m, none)

/-- The futures have no influence on the table. -/
theorem applyCommand_table (env : Env C τ) (m : LocalManager C R Rid τ) (cmd : Command C R Rid) :
    ((m.applyCommand env cmd).1.table, (m.applyCommand env cmd).2) =
      m.table.applyCommand env cmd := by
  cases cmd with
  | acquire c r ty requestId =>
    have h := applyAcquire_table env m c r ty requestId
    rw [Prod.ext_iff] at h
    exact Prod.ext h.1 (congrArg some h.2)
  | release c r => rfl
  | other => rfl

/-- `_apply_command` over a list of commands: the state it ends with, and what it returned. -/
def execute (m : LocalManager C R Rid τ) :
    List (Turn C R Rid τ) → LocalManager C R Rid τ × List (Option LockStatus)
  | [] => (m, [])
  | x :: rest =>
    let (m, status) := { m with pendingRequests := x.pendingRequests }.applyCommand x.env x.command
    let (m, statuses) := execute m rest
    (m, status :: statuses)

/-- A node starts with no locks and no futures. -/
def init : LocalManager C R Rid τ := ⟨LockTable.init, Dict.empty, []⟩

end LocalManager

/-! ## Two replicas -/

/-- Two tables are the same but for the stamps. -/
def LockTable.Agree (t : LockTable C R τ) (t' : LockTable C R τ') : Prop :=
  t.mapStamp (fun _ => ()) = t'.mapStamp (fun _ => ())

namespace LockTable.Agree

theorem content {t : LockTable C R τ} {t' : LockTable C R τ'} (h : t.Agree t') :
    t.locks.map Lock.content = t'.locks.map Lock.content := by
  have hitems := congrArg (fun u : LockTable C R Unit => (u.locks.map Lock.content).items) h
  simp only [LockTable.mapStamp, Dict.map, List.map_map] at hitems
  apply Dict.eq_of_items
  simpa only [Dict.map, Function.comp_def, Lock.content_mapStamp] using hitems

theorem deadlockDetector {t : LockTable C R τ} {t' : LockTable C R τ'} (h : t.Agree t') :
    t.deadlockDetector = t'.deadlockDetector :=
  congrArg LockTable.deadlockDetector h

variable [DecidableEq C] [DecidableEq R] [DecidableEq τ] [DecidableEq τ']

/-- Both replicas do what a replica whose clock says nothing does. -/
theorem applyCommand {t : LockTable C R τ} {t' : LockTable C R τ'} (h : t.Agree t')
    (env : Env C τ) (env' : Env C τ') (cmd : Command C R Rid) :
    (t.applyCommand env cmd).1.Agree (t'.applyCommand env' cmd).1 ∧
      (t.applyCommand env cmd).2 = (t'.applyCommand env' cmd).2 := by
  let blank : Env C Unit := ⟨env.order, ()⟩
  have hleft : (t.mapStamp fun _ => ()).applyCommand blank cmd =
      ((t.applyCommand env cmd).1.mapStamp (fun _ => ()), (t.applyCommand env cmd).2) := by
    apply LockTable.applyCommand_mapStamp
    rfl
  have hright : (t'.mapStamp fun _ => ()).applyCommand blank cmd =
      ((t'.applyCommand env' cmd).1.mapStamp (fun _ => ()), (t'.applyCommand env' cmd).2) := by
    apply LockTable.applyCommand_mapStamp
    rfl
  rw [h, hright, Prod.ext_iff] at hleft
  exact ⟨hleft.1.symm, hleft.2.symm⟩

theorem execute {m : LocalManager C R Rid τ} {m' : LocalManager C R Rid τ'} [DecidableEq Rid]
    (h : m.table.Agree m'.table) {xs : List (Turn C R Rid τ)} {ys : List (Turn C R Rid τ')}
    (hcmds : xs.map Turn.command = ys.map Turn.command) :
    (m.execute xs).1.table.Agree (m'.execute ys).1.table ∧
      (m.execute xs).2 = (m'.execute ys).2 := by
  induction xs generalizing m m' ys with
  | nil =>
    cases ys with
    | nil => exact ⟨h, rfl⟩
    | cons y ys => cases hcmds
  | cons x xs ih =>
    cases ys with
    | nil => cases hcmds
    | cons y ys =>
      obtain ⟨hcmd, hrest⟩ := List.cons.inj hcmds
      have hx := LocalManager.applyCommand_table x.env
        { m with pendingRequests := x.pendingRequests } x.command
      have hy := LocalManager.applyCommand_table y.env
        { m' with pendingRequests := y.pendingRequests } y.command
      have hstep := h.applyCommand x.env y.env x.command
      rw [Prod.ext_iff] at hx hy
      have hagree := hstep.1
      rw [← hx.1, hcmd, ← hy.1] at hagree
      have hstatus := hstep.2
      rw [← hx.2, hcmd, ← hy.2] at hstatus
      simp only [LocalManager.execute]
      rw [hcmd]
      obtain ⟨htable, hstatuses⟩ := ih hagree hrest
      exact ⟨htable, List.cons_eq_cons.mpr ⟨hstatus, hstatuses⟩⟩

end LockTable.Agree

/-- **Replicas are deterministic.** Two executions over the same commands return the same statuses
and end with the same locks and the same wait-for graph, whatever the clocks, the orders in which
sets are walked and the registered futures. -/
theorem replicas_deterministic [DecidableEq C] [DecidableEq R] [DecidableEq Rid] [DecidableEq τ]
    [DecidableEq τ'] (xs : List (Turn C R Rid τ)) (ys : List (Turn C R Rid τ'))
    (hcmds : xs.map Turn.command = ys.map Turn.command) :
    (LocalManager.init.execute xs).2 = (LocalManager.init.execute ys).2 ∧
      (LocalManager.init.execute xs).1.table.locks.map Lock.content =
        (LocalManager.init.execute ys).1.table.locks.map Lock.content ∧
      (LocalManager.init.execute xs).1.table.deadlockDetector =
        (LocalManager.init.execute ys).1.table.deadlockDetector := by
  have hinit : (LocalManager.init : LocalManager C R Rid τ).table.Agree
      (LocalManager.init : LocalManager C R Rid τ').table := rfl
  obtain ⟨hagree, hstatus⟩ := hinit.execute hcmds
  exact ⟨hstatus, hagree.content, hagree.deadlockDetector⟩

/-! ## Concrete executions -/

namespace LocalManager

/-- Clients 0 and 1 share lock 0, for which 2 waits; 1 asks for lock 1, which 2 holds. -/
def crossing : List (Command (Fin 3) ℕ ℕ) :=
  [.acquire 0 0 .shared (some 0), .acquire 1 0 .shared (some 1), .acquire 2 1 .exclusive (some 2),
    .acquire 2 0 .exclusive (some 3), .acquire 1 1 .shared (some 4), .release 0 0]

/-- A node whose clock stands still, that walks its sets upwards and whose callers wait for
    nothing. -/
def upwards (cmd : Command (Fin 3) ℕ ℕ) : Turn (Fin 3) ℕ ℕ ℕ :=
  ⟨cmd, LockTable.finEnv 3, Dict.empty⟩

/-- A node whose clock reads `now`, that walks its sets downwards and whose callers wait for
    request 4. -/
def downwards (now : ℚ) (cmd : Command (Fin 3) ℕ ℕ) : Turn (Fin 3) ℕ ℕ ℚ where
  command := cmd
  env :=
    { order :=
        { walk := fun _ s => ((List.finRange 3).filter (· ∈ s)).reverse
          mem_walk := by simp }
      now := now }
  pendingRequests := Dict.empty.set 4 none

end LocalManager

open LocalManager in
theorem replicas_deterministic_crossing :
    (init.execute (crossing.map upwards)).2 =
        [some .acquired, some .acquired, some .acquired, some .waiting, some .deadlock,
          some .released] ∧
      (init.execute (crossing.map upwards)).2 =
        (init.execute (crossing.mapIdx fun k => downwards k)).2 ∧
      (init.execute (crossing.map upwards)).1.table.locks.map Lock.content =
        (init.execute (crossing.mapIdx fun k => downwards k)).1.table.locks.map Lock.content ∧
      (init.execute (crossing.map upwards)).1.table.deadlockDetector =
        (init.execute (crossing.mapIdx fun k => downwards k)).1.table.deadlockDetector :=
  ⟨by decide, replicas_deterministic _ _ rfl⟩

end Pynchronize
