import Pynchronize.Lock.Table
import Pynchronize.Lock.CycleSearch

/-!
# What a command does to the lock table

One lemma for each way a command can go, and how `holders`, `waiting` and the
wait-for graph read afterwards. The invariants of `Lock.Invariant`,
`Lock.Deadlocks` and `Lock.Exclusion` are derived from these.
-/

namespace Pynchronize.LockTable

open Lib Relation

variable {C R Rid τ : Type*} [DecidableEq R]

/-! ## Reading an updated table -/

@[simp] theorem holders_set (t : LockTable C R τ) (r r' : R) (lock : Lock C R τ)
    (d : DeadlockDetector C) :
    (⟨t.locks.set r lock, d⟩ : LockTable C R τ).holders r' =
      if r = r' then lock.holders else t.holders r' := by
  unfold holders
  rw [Dict.get?_set]
  split <;> rfl

@[simp] theorem waiting_set (t : LockTable C R τ) (r r' : R) (lock : Lock C R τ)
    (d : DeadlockDetector C) :
    (⟨t.locks.set r lock, d⟩ : LockTable C R τ).waiting r' =
      if r = r' then lock.waiting else t.waiting r' := by
  unfold waiting
  rw [Dict.get?_set]
  split <;> rfl

@[simp] theorem holders_lockOrNew (t : LockTable C R τ) (r : R) (lockType : LockType) :
    (t.lockOrNew r lockType).holders = t.holders r := by
  unfold lockOrNew holders
  cases t.locks.get? r <;> rfl

@[simp] theorem waiting_lockOrNew (t : LockTable C R τ) (r : R) (lockType : LockType) :
    (t.lockOrNew r lockType).waiting = t.waiting r := by
  unfold lockOrNew waiting
  cases t.locks.get? r <;> rfl

@[simp] theorem holders_init (r : R) : (init : LockTable C R τ).holders r = ∅ := rfl

@[simp] theorem waiting_init (r : R) : (init : LockTable C R τ).waiting r = [] := rfl

theorem holders_of_get? {t : LockTable C R τ} {r : R} {lock : Lock C R τ}
    (h : t.locks.get? r = some lock) : t.holders r = lock.holders := by
  simp [holders, h]

theorem waiting_of_get? {t : LockTable C R τ} {r : R} {lock : Lock C R τ}
    (h : t.locks.get? r = some lock) : t.waiting r = lock.waiting := by
  simp [waiting, h]

theorem exists_lock_of_mem_holders {t : LockTable C R τ} {r : R} {c : C} (h : c ∈ t.holders r) :
    ∃ lock, t.locks.get? r = some lock ∧ c ∈ lock.holders := by
  unfold holders at h
  cases hg : t.locks.get? r with
  | none => simp [hg] at h
  | some lock => exact ⟨lock, rfl, by simpa [hg] using h⟩

/-! ## Acquire -/

variable [DecidableEq C]

/-- The lock `resource_id` after `client_id` has been let in. -/
def grantedLock (t : LockTable C R τ) (c : C) (r : R) (ty : LockType) : Lock C R τ :=
  { t.lockOrNew r ty with
    lockType := if t.holders r = ∅ then ty else (t.lockOrNew r ty).lockType
    holders := insert c (t.holders r) }

/-- The lock `resource_id` after a request has been queued. -/
def queuedLock (t : LockTable C R τ) (c : C) (r : R) (ty : LockType) (now : τ) : Lock C R τ :=
  { t.lockOrNew r ty with waiting := t.waiting r ++ [⟨c, r, ty, now⟩] }

/-- The detector after the edges of a request have been added. -/
def waitingDetector (t : LockTable C R τ) (c : C) (r : R) : DeadlockDetector C :=
  t.deadlockDetector.addWait c (t.holders r)

theorem edge_waitingDetector (t : LockTable C R τ) (c : C) (r : R) (w h : C) :
    (t.waitingDetector c r).Edge w h ↔
      t.deadlockDetector.Edge w h ∨ (w = c ∧ h ∈ t.holders r ∧ h ≠ c) :=
  DeadlockDetector.edge_addWait _ _ _ _ _

theorem applyAcquire_granted {t : LockTable C R τ} {c : C} {r : R} {ty : LockType} (env : Env C τ)
    (hcan : (t.lockOrNew r ty).canAcquire c ty = true) :
    applyAcquire env t c r ty =
      (⟨t.locks.set r (t.grantedLock c r ty), t.deadlockDetector.removeWait c⟩, .acquired) := by
  by_cases he : t.holders r = ∅ <;> simp [applyAcquire, hcan, grantedLock, he]

theorem applyAcquire_refused {t : LockTable C R τ} {c : C} {r : R} {ty : LockType} {env : Env C τ}
    (hcan : (t.lockOrNew r ty).canAcquire c ty = false)
    (hcyc : ((t.waitingDetector c r).detectCycle env.order c).isSome) :
    applyAcquire env t c r ty =
      (⟨t.locks.set r (t.lockOrNew r ty), (t.waitingDetector c r).removeWait c⟩, .deadlock) := by
  obtain ⟨cycle, hcycle⟩ := Option.isSome_iff_exists.mp hcyc
  unfold waitingDetector at hcycle
  simp [applyAcquire, hcan, waitingDetector, hcycle]

theorem applyAcquire_queued {t : LockTable C R τ} {c : C} {r : R} {ty : LockType} {env : Env C τ}
    (hcan : (t.lockOrNew r ty).canAcquire c ty = false)
    (hcyc : (t.waitingDetector c r).detectCycle env.order c = none) :
    applyAcquire env t c r ty =
      (⟨t.locks.set r (t.queuedLock c r ty env.now), t.waitingDetector c r⟩, .waiting) := by
  unfold waitingDetector at hcyc
  simp [applyAcquire, hcan, waitingDetector, queuedLock, hcyc]

/-- The three ways of `_apply_acquire`. -/
theorem applyAcquire_cases (env : Env C τ) (t : LockTable C R τ) (c : C) (r : R) (ty : LockType) :
    ((t.lockOrNew r ty).canAcquire c ty = true ∧ applyAcquire env t c r ty =
      (⟨t.locks.set r (t.grantedLock c r ty), t.deadlockDetector.removeWait c⟩, .acquired)) ∨
    ((t.lockOrNew r ty).canAcquire c ty = false ∧
      ((t.waitingDetector c r).detectCycle env.order c).isSome ∧ applyAcquire env t c r ty =
      (⟨t.locks.set r (t.lockOrNew r ty), (t.waitingDetector c r).removeWait c⟩, .deadlock)) ∨
    ((t.lockOrNew r ty).canAcquire c ty = false ∧
      (t.waitingDetector c r).detectCycle env.order c = none ∧ applyAcquire env t c r ty =
      (⟨t.locks.set r (t.queuedLock c r ty env.now), t.waitingDetector c r⟩, .waiting)) := by
  cases hcan : (t.lockOrNew r ty).canAcquire c ty with
  | true => exact Or.inl ⟨rfl, applyAcquire_granted env hcan⟩
  | false =>
    cases hcyc : (t.waitingDetector c r).detectCycle env.order c with
    | some cycle =>
      have hsome : ((t.waitingDetector c r).detectCycle env.order c).isSome := by simp [hcyc]
      exact Or.inr (Or.inl ⟨rfl, by simp, applyAcquire_refused hcan hsome⟩)
    | none => exact Or.inr (Or.inr ⟨rfl, rfl, applyAcquire_queued hcan hcyc⟩)

/-! ## Release -/

/-- The detector after a release: edges to the releasing client go, then those
of the clients served from the queue. -/
def releaseDetector (d : DeadlockDetector C) (c : C) (granted : List (LockRequest C R τ)) :
    DeadlockDetector C :=
  granted.foldl (fun d req => d.removeWait req.clientId) (d.removeHolder c)

omit [DecidableEq R] in
theorem edge_foldl_removeWait (granted : List (LockRequest C R τ)) (d : DeadlockDetector C)
    (w h : C) :
    (granted.foldl (fun d req => d.removeWait req.clientId) d).Edge w h ↔
      d.Edge w h ∧ w ∉ Lock.clients granted := by
  induction granted generalizing d with
  | nil => simp [Lock.clients]
  | cons req rest ih =>
    rw [List.foldl_cons, ih, DeadlockDetector.edge_removeWait]
    simp only [Lock.mem_clients, List.mem_cons, not_exists, not_and, forall_eq_or_imp]
    constructor
    · rintro ⟨⟨he, hne⟩, hrest⟩
      exact ⟨he, fun e => hne e.symm, hrest⟩
    · rintro ⟨he, hne, hrest⟩
      exact ⟨⟨he, fun e => hne e.symm⟩, hrest⟩

omit [DecidableEq R] in
@[simp] theorem edge_releaseDetector (d : DeadlockDetector C) (c : C)
    (granted : List (LockRequest C R τ)) (w h : C) :
    (releaseDetector d c granted).Edge w h ↔
      d.Edge w h ∧ h ≠ c ∧ w ∉ Lock.clients granted := by
  rw [releaseDetector, edge_foldl_removeWait, DeadlockDetector.edge_removeHolder, and_assoc]

variable [DecidableEq τ]

theorem applyRelease_not_held {t : LockTable C R τ} {c : C} {r : R} (h : c ∉ t.holders r) :
    applyRelease t c r = (t, .released) := by
  unfold applyRelease
  cases hg : t.locks.get? r with
  | none => rfl
  | some lock =>
    rw [holders_of_get? hg] at h
    simp [h]

/-- **Release by a holder.** The lock goes to `afterRelease`, and leaves the
table when nobody holds it any more. -/
theorem applyRelease_held {t : LockTable C R τ} {c : C} {r : R} {lock : Lock C R τ}
    (hg : t.locks.get? r = some lock) (hc : c ∈ lock.holders) :
    applyRelease t c r =
      (⟨if (lock.afterRelease c).holders = ∅ then t.locks.erase r
          else t.locks.set r (lock.afterRelease c),
        releaseDetector t.deadlockDetector c (lock.handedOver c)⟩, .released) := by
  unfold applyRelease
  simp only [hg, hc, not_true_eq_false, ↓reduceIte]
  by_cases he : lock.holders.erase c = ∅
  · cases hw : lock.waiting with
    | nil =>
      simp [he, hw, Lock.afterRelease, Lock.handedOver, Lock.grantablePrefix, Lock.clients,
        releaseDetector]
    | cons next rest =>
      have hp := Lock.processWaiting_eq { lock with holders := lock.holders.erase c }
        (t.deadlockDetector.removeHolder c) hw
      have hne : (lock.afterRelease c).holders ≠ ∅ := by
        simp [Lock.afterRelease_holders_eq_empty, hw]
      have hlock : (Lock.processWaiting { lock with holders := lock.holders.erase c }
          (t.deadlockDetector.removeHolder c)) =
            (lock.afterRelease c, releaseDetector t.deadlockDetector c (lock.handedOver c)) := by
        rw [hp]
        simp [Lock.afterRelease, Lock.handedOver, he, hw, releaseDetector,
          Lock.head?_grantablePrefix]
      simp only [he, hw, ne_eq, reduceCtorEq, not_false_eq_true, and_self, ↓reduceIte] at *
      simp [hlock, hne]
  · simp [he, Lock.afterRelease, Lock.handedOver, Lock.clients, releaseDetector]

/-! ## Runs -/

/-- `P` holds of the table and the command at every step of a list of commands. -/
def EachStep (P : LockTable C R τ → Command C R Rid → Prop) (t : LockTable C R τ) :
    List (Env C τ × Command C R Rid) → Prop
  | [] => True
  | (env, cmd) :: rest => P t cmd ∧ EachStep P (t.applyCommand env cmd).1 rest

instance instDecidableEachStep {P : LockTable C R τ → Command C R Rid → Prop}
    [∀ t cmd, Decidable (P t cmd)] :
    (t : LockTable C R τ) → (cmds : List (Env C τ × Command C R Rid)) →
      Decidable (t.EachStep P cmds)
  | _, [] => isTrue trivial
  | t, (env, cmd) :: rest =>
    have : Decidable (EachStep P (t.applyCommand env cmd).1 rest) := instDecidableEachStep _ rest
    inferInstanceAs (Decidable (P t cmd ∧ EachStep P (t.applyCommand env cmd).1 rest))

theorem EachStep.append {P : LockTable C R τ → Command C R Rid → Prop} {t : LockTable C R τ}
    {xs ys : List (Env C τ × Command C R Rid)} (h : t.EachStep P (xs ++ ys)) :
    t.EachStep P xs ∧ (t.run xs).EachStep P ys := by
  induction xs generalizing t with
  | nil => exact ⟨trivial, h⟩
  | cons x xs ih =>
    obtain ⟨hrest, hys⟩ := ih h.2
    exact ⟨⟨h.1, hrest⟩, hys⟩

/-- What every command preserves holds after every list of commands. -/
theorem run_preserves {I : LockTable C R τ → Prop} {P : LockTable C R τ → Command C R Rid → Prop}
    (hstep : ∀ env t (cmd : Command C R Rid), I t → P t cmd → I (t.applyCommand env cmd).1)
    {t : LockTable C R τ} (ht : I t) {cmds : List (Env C τ × Command C R Rid)}
    (hP : t.EachStep P cmds) : I (t.run cmds) := by
  induction cmds generalizing t with
  | nil => exact ht
  | cons x xs ih => exact ih (hstep x.1 t x.2 ht hP.1) hP.2

theorem eachStep_true (t : LockTable C R τ) (cmds : List (Env C τ × Command C R Rid)) :
    t.EachStep (fun _ _ => True) cmds := by
  induction cmds generalizing t with
  | nil => trivial
  | cons x xs ih => exact ⟨trivial, ih _⟩

/-! ## Concrete runs -/

/-- Clients `Fin n` walked in increasing order, by a process whose clock stands still. -/
def finEnv (n : ℕ) : Env (Fin n) ℕ where
  order :=
    { walk := fun _ s => (List.finRange n).filter (· ∈ s)
      mem_walk := by simp }
  now := 0

/-- `acquire` and `release` as the HTTP handlers propose them, in one environment. -/
def acq (n : ℕ) (c : Fin n) (r : ℕ) (ty : LockType) : Env (Fin n) ℕ × Command (Fin n) ℕ ℕ :=
  (finEnv n, .acquire c r ty none)

def rel (n : ℕ) (c : Fin n) (r : ℕ) : Env (Fin n) ℕ × Command (Fin n) ℕ ℕ :=
  (finEnv n, .release c r)

end Pynchronize.LockTable
