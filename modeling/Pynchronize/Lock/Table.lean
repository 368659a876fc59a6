import Pynchronize.Lock.Deadlock

/-!
# The lock table

The replicated part of `LockManager` (`src/nodes/lock_manager.py`): `locks`,
the deadlock detector, and `_apply_command` on them. Futures and callers are
added in `Lock.Manager`. `applyAcquire_granted`, `applyAcquire_refused`,
`applyAcquire_queued` and `applyRelease_held` say what a command does;
`processWaiting_eq` says what the queue hand-off does. Later modules use these
and not the definitions.
-/

namespace Pynchronize

open Lib Relation

inductive LockType where
  | shared
  | exclusive
  deriving DecidableEq, Repr

inductive LockStatus where
  | acquired
  | waiting
  | released
  | denied
  | timeout
  | deadlock
  deriving DecidableEq, Repr

/-- `timestamp` is a reading of the local clock; it is only ever compared for
equality, by the dataclass `==` of `waiting.remove`. -/
structure LockRequest (C R τ : Type*) where
  clientId : C
  resourceId : R
  lockType : LockType
  timestamp : τ
  deriving DecidableEq

structure Lock (C R τ : Type*) where
  resourceId : R
  lockType : LockType
  holders : Finset C
  waiting : List (LockRequest C R τ)

/-- A committed command. Any other `action` is ignored by `_apply_command`. -/
inductive Command (C R Rid : Type*) where
  | acquire (clientId : C) (resourceId : R) (lockType : LockType) (requestId : Option Rid)
  | release (clientId : C) (resourceId : R)
  | other
  deriving DecidableEq

/-- What the applying process contributes of its own: the order in which it
walks sets, and its clock. -/
structure Env (C τ : Type*) where
  order : SetOrder C
  now : τ

structure LockTable (C R τ : Type*) where
  locks : Dict R (Lock C R τ)
  deadlockDetector : DeadlockDetector C

variable {C R Rid τ : Type*}

/-! ## The queue hand-off -/

namespace Lock

/-- The loop that collects `shared_requests`. -/
def sharedRequests : List (LockRequest C R τ) → List (LockRequest C R τ)
  | [] => []
  | req :: rest => if req.lockType = .shared then req :: sharedRequests rest else []

/-- The longest prefix of a queue that can be granted together: one EXCLUSIVE
request, or the leading run of SHARED ones. -/
def grantablePrefix : List (LockRequest C R τ) → List (LockRequest C R τ)
  | [] => []
  | next :: rest =>
    if next.lockType = .exclusive then [next] else next :: rest.takeWhile (·.lockType = .shared)

theorem sharedRequests_eq_takeWhile (reqs : List (LockRequest C R τ)) :
    sharedRequests reqs = reqs.takeWhile (·.lockType = .shared) := by
  induction reqs with
  | nil => rfl
  | cons req rest ih =>
    by_cases h : req.lockType = .shared <;> simp [sharedRequests, h, ih]

theorem grantablePrefix_isPrefix (reqs : List (LockRequest C R τ)) :
    grantablePrefix reqs <+: reqs := by
  cases reqs with
  | nil => exact List.prefix_rfl
  | cons next rest =>
    simp only [grantablePrefix]
    split
    · exact ⟨rest, rfl⟩
    · exact (List.prefix_cons_inj next).mpr (List.takeWhile_prefix _)

theorem grantablePrefix_append_drop (reqs : List (LockRequest C R τ)) :
    grantablePrefix reqs ++ reqs.drop (grantablePrefix reqs).length = reqs :=
  List.prefix_iff_eq_append.mp (grantablePrefix_isPrefix reqs)

theorem grantablePrefix_of_shared {next : LockRequest C R τ} {rest : List (LockRequest C R τ)}
    (h : next.lockType ≠ .exclusive) :
    grantablePrefix (next :: rest) = sharedRequests (next :: rest) := by
  have hs : next.lockType = .shared := by cases ht : next.lockType <;> simp_all
  simp [grantablePrefix, sharedRequests_eq_takeWhile, hs]

theorem grantablePrefix_ne_nil {reqs : List (LockRequest C R τ)} (h : reqs ≠ []) :
    grantablePrefix reqs ≠ [] := by
  cases reqs with
  | nil => exact absurd rfl h
  | cons next rest => simp only [grantablePrefix]; split <;> simp

theorem head?_grantablePrefix (reqs : List (LockRequest C R τ)) :
    (grantablePrefix reqs).head? = reqs.head? := by
  cases reqs with
  | nil => rfl
  | cons next rest => simp only [grantablePrefix]; split <;> rfl

section Grant

variable [DecidableEq C]

def canAcquire (lock : Lock C R τ) (clientId : C) (lockType : LockType) : Bool :=
  lock.holders = ∅ ∨ (lock.lockType = .shared ∧ lockType = .shared) ∨ clientId ∈ lock.holders

/-- The clients of a list of requests. -/
def clients (reqs : List (LockRequest C R τ)) : Finset C :=
  (reqs.map LockRequest.clientId).toFinset

@[simp] theorem mem_clients (reqs : List (LockRequest C R τ)) (c : C) :
    c ∈ clients reqs ↔ ∃ req ∈ reqs, req.clientId = c := by
  simp [clients]

/-- The requests that leave the queue when `clientId` gives the lock up. -/
def handedOver (lock : Lock C R τ) (clientId : C) : List (LockRequest C R τ) :=
  if lock.holders.erase clientId = ∅ then grantablePrefix lock.waiting else []

/-- The lock after a holder has released it and the queue was served. -/
def afterRelease (lock : Lock C R τ) (clientId : C) : Lock C R τ :=
  { lock with
    lockType := ((lock.handedOver clientId).head?.map LockRequest.lockType).getD lock.lockType
    holders := lock.holders.erase clientId ∪ clients (lock.handedOver clientId)
    waiting := lock.waiting.drop (lock.handedOver clientId).length }

/-- The queue of a released lock is served as long as there is one. -/
theorem afterRelease_holders_eq_empty (lock : Lock C R τ) (c : C) :
    (lock.afterRelease c).holders = ∅ ↔ lock.holders.erase c = ∅ ∧ lock.waiting = [] := by
  simp only [afterRelease, Finset.union_eq_empty, handedOver]
  refine and_congr_right fun he => ?_
  simp only [he, ↓reduceIte]
  constructor
  · intro hclients
    by_contra hw
    exact grantablePrefix_ne_nil hw (by simpa [clients] using hclients)
  · intro hw
    simp [hw, grantablePrefix, clients]

variable [DecidableEq R] [DecidableEq τ]

/-- One turn of the loop that grants `shared_requests`. -/
def grantShared (s : Lock C R τ × DeadlockDetector C) (req : LockRequest C R τ) :
    Lock C R τ × DeadlockDetector C :=
  ({ s.1 with waiting := s.1.waiting.erase req, holders := insert req.clientId s.1.holders },
    s.2.removeWait req.clientId)

def processWaiting (lock : Lock C R τ) (d : DeadlockDetector C) :
    Lock C R τ × DeadlockDetector C :=
  match lock.waiting with
  | [] => (lock, d)
  | next :: rest =>
    if next.lockType = .exclusive then
      ({ lock with
          waiting := rest
          lockType := .exclusive
          holders := insert next.clientId lock.holders },
        d.removeWait next.clientId)
    else
      let (lock, d) := (sharedRequests lock.waiting).foldl grantShared (lock, d)
      ({ lock with lockType := .shared }, d)

/-- `waiting.remove(req)` always meets `req` at the head of the queue, so equal
requests further back stay where they are. -/
theorem foldl_grantShared (reqs rest : List (LockRequest C R τ)) (lock : Lock C R τ)
    (d : DeadlockDetector C) (hw : lock.waiting = reqs ++ rest) :
    reqs.foldl grantShared (lock, d) =
      ({ lock with waiting := rest, holders := lock.holders ∪ clients reqs },
        reqs.foldl (fun d req => d.removeWait req.clientId) d) := by
  induction reqs generalizing lock d with
  | nil =>
    simp only [List.nil_append] at hw
    simp [clients, ← hw]
  | cons req reqs ih =>
    have hw' : (grantShared (lock, d) req).1.waiting = reqs ++ rest := by
      simp [grantShared, hw]
    rw [List.foldl_cons, show grantShared (lock, d) req =
      ((grantShared (lock, d) req).1, (grantShared (lock, d) req).2) from rfl, ih _ _ hw']
    simp [grantShared, clients, Finset.insert_union, Finset.union_insert]

/-- **The queue hand-off.** `_process_waiting` makes exactly the longest jointly
grantable prefix holders and keeps the rest of the queue in order. -/
theorem processWaiting_eq (lock : Lock C R τ) (d : DeadlockDetector C) {next : LockRequest C R τ}
    {rest : List (LockRequest C R τ)} (hw : lock.waiting = next :: rest) :
    lock.processWaiting d =
      ({ lock with
          lockType := next.lockType
          holders := lock.holders ∪ clients (grantablePrefix lock.waiting)
          waiting := lock.waiting.drop (grantablePrefix lock.waiting).length },
        (grantablePrefix lock.waiting).foldl (fun d req => d.removeWait req.clientId) d) := by
  rw [processWaiting, hw]
  by_cases hx : next.lockType = .exclusive
  · simp [hx, grantablePrefix, clients]
  · have hs : next.lockType = .shared := by cases ht : next.lockType <;> simp_all
    simp only [hx, ↓reduceIte]
    have hsplit := grantablePrefix_append_drop (next :: rest)
    rw [← grantablePrefix_of_shared hx, foldl_grantShared _ _ _ _ (hw.trans hsplit.symm), hs]

end Grant

end Lock

/-! ## `_apply_command` -/

namespace LockTable

variable [DecidableEq C] [DecidableEq R]

def init : LockTable C R τ := ⟨Dict.empty, DeadlockDetector.init⟩

def holders (t : LockTable C R τ) (r : R) : Finset C :=
  ((t.locks.get? r).map Lock.holders).getD ∅

def waiting (t : LockTable C R τ) (r : R) : List (LockRequest C R τ) :=
  ((t.locks.get? r).map Lock.waiting).getD []

/-- `w` has a request queued on `r`. -/
def Queued (t : LockTable C R τ) (w : C) (r : R) : Prop := ∃ req ∈ t.waiting r, req.clientId = w

/-- The true wait-for relation of the table. -/
def WaitsFor (t : LockTable C R τ) (w h : C) : Prop :=
  ∃ r, t.Queued w r ∧ h ∈ t.holders r ∧ h ≠ w

/-- `self.locks[resource_id]`, after it has been created if it was absent. -/
def lockOrNew (t : LockTable C R τ) (r : R) (lockType : LockType) : Lock C R τ :=
  (t.locks.get? r).getD ⟨r, lockType, ∅, []⟩

def applyAcquire (env : Env C τ) (t : LockTable C R τ) (clientId : C) (resourceId : R)
    (lockType : LockType) : LockTable C R τ × LockStatus :=
  let lock := t.lockOrNew resourceId lockType
  if lock.canAcquire clientId lockType then
    let lock := if lock.holders = ∅ then { lock with lockType := lockType } else lock
    let lock := { lock with holders := insert clientId lock.holders }
    (⟨t.locks.set resourceId lock, t.deadlockDetector.removeWait clientId⟩, .acquired)
  else
    let d := t.deadlockDetector.addWait clientId lock.holders
    match d.detectCycle env.order clientId with
    | some _ => (⟨t.locks.set resourceId lock, d.removeWait clientId⟩, .deadlock)
    | none =>
      let request := ⟨clientId, resourceId, lockType, env.now⟩
      let lock := { lock with waiting := lock.waiting ++ [request] }
      (⟨t.locks.set resourceId lock, d⟩, .waiting)

variable [DecidableEq τ]

def applyRelease (t : LockTable C R τ) (clientId : C) (resourceId : R) :
    LockTable C R τ × LockStatus :=
  match t.locks.get? resourceId with
  | none => (t, .released)
  | some lock =>
    if clientId ∉ lock.holders then (t, .released)
    else
      let lock := { lock with holders := lock.holders.erase clientId }
      let d := t.deadlockDetector.removeHolder clientId
      let (lock, d) :=
        if lock.holders = ∅ ∧ lock.waiting ≠ [] then lock.processWaiting d else (lock, d)
      if lock.holders = ∅ ∧ lock.waiting = [] then (⟨t.locks.erase resourceId, d⟩, .released)
      else (⟨t.locks.set resourceId lock, d⟩, .released)

def applyCommand (env : Env C τ) (t : LockTable C R τ) :
    Command C R Rid → LockTable C R τ × Option LockStatus
  | .acquire clientId resourceId lockType _ =>
    let (t, status) := applyAcquire env t clientId resourceId lockType
    (t, some status)
  | .release clientId resourceId =>
    let (t, status) := applyRelease t clientId resourceId
    (t, some status)
  | .other => (t, none)

/-- The table after a list of commands, each applied in its own environment. -/
def run (t : LockTable C R τ) : List (Env C τ × Command C R Rid) → LockTable C R τ
  | [] => t
  | (env, cmd) :: rest => run (t.applyCommand env cmd).1 rest

theorem run_append (t : LockTable C R τ) (xs ys : List (Env C τ × Command C R Rid)) :
    t.run (xs ++ ys) = (t.run xs).run ys := by
  induction xs generalizing t with
  | nil => rfl
  | cons x xs ih => exact ih _

end LockTable

end Pynchronize
