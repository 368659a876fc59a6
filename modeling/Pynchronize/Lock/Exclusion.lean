import Pynchronize.Lock.Invariant

/-!
# Mutual exclusion as granted to clients

`HeldExclusively` speaks about the history of answers: an EXCLUSIVE request of
the client was granted and the client has not released the resource since. The
third branch of `_apply_acquire` grants an EXCLUSIVE request to whoever already
holds the lock and leaves it SHARED, so others may hold it too
(`upgrade_not_exclusive`). `exclusive_of_noUpgrade`: without such a request the
client is the only holder.
-/

namespace Pynchronize.LockTable

open Lib

variable {C R Rid τ : Type*} [DecidableEq R]

/-- The lock is EXCLUSIVE and `c` is its only holder. -/
def Exclusive (t : LockTable C R τ) (c : C) (r : R) : Prop :=
  ∃ lock, t.locks.get? r = some lock ∧ lock.lockType = .exclusive ∧ lock.holders = {c}

theorem Exclusive.holders {t : LockTable C R τ} {c : C} {r : R} (h : t.Exclusive c r) :
    t.holders r = {c} := by
  obtain ⟨lock, hg, _, hh⟩ := h
  rw [holders_of_get? hg, hh]

theorem Exclusive.lockOrNew {t : LockTable C R τ} {c : C} {r : R} (h : t.Exclusive c r)
    (ty : LockType) :
    (t.lockOrNew r ty).lockType = .exclusive ∧ (t.lockOrNew r ty).holders = {c} := by
  obtain ⟨lock, hg, hx, hh⟩ := h
  simp [LockTable.lockOrNew, hg, hx, hh]

variable [DecidableEq C]

/-- The command does not ask for an EXCLUSIVE lock on behalf of a client that
holds the lock as SHARED. -/
def NoUpgrade (t : LockTable C R τ) : Command C R Rid → Prop
  | .acquire c r .exclusive _ =>
    ∀ lock ∈ t.locks.get? r, c ∈ lock.holders → lock.lockType = .exclusive
  | .acquire _ _ .shared _ | .release _ _ | .other => True

instance (t : LockTable C R τ) : (cmd : Command C R Rid) → Decidable (t.NoUpgrade cmd)
  | .acquire c r .exclusive _ => inferInstanceAs
    (Decidable (∀ lock ∈ t.locks.get? r, c ∈ lock.holders → lock.lockType = .exclusive))
  | .acquire _ _ .shared _ | .release _ _ | .other => isTrue trivial

/-- A lock held exclusively lets in only its holder. -/
theorem Exclusive.canAcquire_iff {t : LockTable C R τ} {c c' : C} {r : R} (h : t.Exclusive c r)
    (ty : LockType) : (t.lockOrNew r ty).canAcquire c' ty = true ↔ c' = c := by
  obtain ⟨hx, _⟩ := h.lockOrNew ty
  simp [Lock.canAcquire, hx, h.holders]

theorem Exclusive.applyAcquire {t : LockTable C R τ} {c : C} {r : R} (h : t.Exclusive c r)
    (env : Env C τ) (c' : C) (r' : R) (ty : LockType) :
    (applyAcquire env t c' r' ty).1.Exclusive c r := by
  by_cases hr : r' = r
  · subst hr
    obtain ⟨hx, hh⟩ := h.lockOrNew ty
    rcases applyAcquire_cases env t c' r' ty with ⟨hcan, he⟩ | ⟨_, _, he⟩ | ⟨_, _, he⟩ <;> rw [he]
    · obtain rfl := (h.canAcquire_iff ty).mp hcan
      refine ⟨_, Dict.get?_set_self _ _ _, ?_, ?_⟩
      · simp [grantedLock, h.holders, hx]
      · simp [grantedLock, h.holders]
    · exact ⟨_, Dict.get?_set_self _ _ _, hx, hh⟩
    · exact ⟨_, Dict.get?_set_self _ _ _, hx, hh⟩
  · obtain ⟨lock, hg, hx, hh⟩ := h
    rcases applyAcquire_cases env t c' r' ty with ⟨_, he⟩ | ⟨_, _, he⟩ | ⟨_, _, he⟩ <;> rw [he] <;>
      exact ⟨lock, by rw [Dict.get?_set_ne _ _ hr]; exact hg, hx, hh⟩

/-- An EXCLUSIVE request that is answered ACQUIRED makes its client the only
holder, unless it upgraded a SHARED lock. -/
theorem exclusive_of_acquired {env : Env C τ} {t : LockTable C R τ} (ht : t.WellFormed) {c : C}
    {r : R} {requestId : Option Rid} (hno : t.NoUpgrade (.acquire c r .exclusive requestId))
    (hst : (applyAcquire env t c r .exclusive).2 = .acquired) :
    (applyAcquire env t c r .exclusive).1.Exclusive c r := by
  rcases applyAcquire_cases env t c r .exclusive with ⟨hcan, he⟩ | ⟨_, _, he⟩ | ⟨_, _, he⟩
  · rw [he]
    refine ⟨_, Dict.get?_set_self _ _ _, ?_⟩
    by_cases hempty : t.holders r = ∅
    · simp [grantedLock, hempty]
    · have hg := get?_of_holders_ne_empty .exclusive hempty
      have hmem : c ∈ (t.lockOrNew r .exclusive).holders := by
        simpa [Lock.canAcquire, hempty] using hcan
      have hx : (t.lockOrNew r .exclusive).lockType = .exclusive := hno _ hg hmem
      obtain ⟨a, ha⟩ := Finset.card_eq_one.mp ((ht r _ hg).exclusive hx)
      obtain rfl : c = a := by
        rw [ha] at hmem
        exact Finset.mem_singleton.mp hmem
      rw [holders_lockOrNew] at ha
      simp [grantedLock, ha, hx]
  · simp [he] at hst
  · simp [he] at hst

variable [DecidableEq τ]

theorem Exclusive.applyRelease {t : LockTable C R τ} {c : C} {r : R} (h : t.Exclusive c r) {c' : C}
    {r' : R} (hne : ¬ (c' = c ∧ r' = r)) : (applyRelease t c' r').1.Exclusive c r := by
  by_cases hc : c' ∈ t.holders r'
  · have hr : r' ≠ r := by
      rintro rfl
      rw [h.holders, Finset.mem_singleton] at hc
      exact hne ⟨hc, rfl⟩
    obtain ⟨lock, hg, hx, hh⟩ := h
    obtain ⟨lock', hg', hc'⟩ := exists_lock_of_mem_holders hc
    rw [applyRelease_held hg' hc']
    refine ⟨lock, ?_, hx, hh⟩
    dsimp only
    split
    · rw [Dict.get?_erase_ne _ (Ne.symm hr)]; exact hg
    · rw [Dict.get?_set_ne _ _ hr]; exact hg
  · rw [applyRelease_not_held hc]
    exact h

/-- An EXCLUSIVE request served from the queue makes its client the only holder. -/
theorem exclusive_of_handedOver {t : LockTable C R τ} {c c' : C} {r : R} (hc : c' ∈ t.holders r)
    {req : LockRequest C R τ} (hreq : req ∈ t.handedOver c' r) (hclient : req.clientId = c)
    (hx : req.lockType = .exclusive) : (applyRelease t c' r).1.Exclusive c r := by
  obtain ⟨lock, hg, hcl⟩ := exists_lock_of_mem_holders hc
  rw [handedOver, holders_of_get? hg, waiting_of_get? hg] at hreq
  have herase : lock.holders.erase c' = ∅ := by
    by_contra hne
    simp [hne] at hreq
  rw [if_pos herase] at hreq
  have hone : Lock.grantablePrefix lock.waiting = [req] := by
    cases hw : lock.waiting with
    | nil => simp [hw, Lock.grantablePrefix] at hreq
    | cons next rest =>
      rw [hw] at hreq
      by_cases hnext : next.lockType = .exclusive
      · simp only [Lock.grantablePrefix, hnext, ↓reduceIte, List.mem_singleton] at hreq ⊢
        rw [hreq]
      · rw [Lock.grantablePrefix_of_shared hnext, Lock.sharedRequests_eq_takeWhile] at hreq
        have := List.mem_takeWhile_imp hreq
        simp [hx] at this
  rw [applyRelease_held hg hcl]
  have hheld : (lock.afterRelease c').holders = {c} := by
    simp [Lock.afterRelease, Lock.handedOver, herase, hone, Lock.clients, hclient]
  refine ⟨lock.afterRelease c', ?_, ?_, hheld⟩
  · simp [hheld]
  · simp [Lock.afterRelease, Lock.handedOver, herase, hone, hx]

/-! ## Over a history of commands -/

/-- The command grants `c` an EXCLUSIVE request on `r`: it is answered ACQUIRED
at once, or it is served from the queue by somebody's release. -/
def GrantsExclusive (env : Env C τ) (t : LockTable C R τ) (c : C) (r : R) :
    Command C R Rid → Prop
  | .acquire c' r' ty _ =>
    c' = c ∧ r' = r ∧ ty = .exclusive ∧ (applyAcquire env t c r .exclusive).2 = .acquired
  | .release c' r' =>
    r' = r ∧ c' ∈ t.holders r ∧
      ∃ req ∈ t.handedOver c' r, req.clientId = c ∧ req.lockType = .exclusive
  | .other => False

/-- An EXCLUSIVE request of `c` on `r` was granted during the commands, and `c`
has not released `r` since. -/
def HeldExclusively (cmds : List (Env C τ × Command C R Rid)) (c : C) (r : R) : Prop :=
  ∃ before env cmd after, cmds = before ++ (env, cmd) :: after ∧
    GrantsExclusive env ((init : LockTable C R τ).run before) c r cmd ∧
    ∀ x ∈ after, x.2 ≠ .release c r

theorem Exclusive.run {t : LockTable C R τ} {c : C} {r : R} (h : t.Exclusive c r)
    {cmds : List (Env C τ × Command C R Rid)} (hno : ∀ x ∈ cmds, x.2 ≠ .release c r) :
    (t.run cmds).Exclusive c r := by
  induction cmds generalizing t with
  | nil => exact h
  | cons x rest ih =>
    refine ih ?_ fun y hy => hno y (List.mem_cons_of_mem _ hy)
    obtain ⟨env, cmd⟩ := x
    have hcmd : cmd ≠ .release c r := hno (env, cmd) (List.mem_cons_self ..)
    cases cmd with
    | acquire c' r' ty _ => exact h.applyAcquire env c' r' ty
    | release c' r' => exact h.applyRelease fun ⟨hc, hr⟩ => hcmd (by rw [hc, hr])
    | other => exact h

/-- **Mutual exclusion as granted.** If no command of the sequence upgrades a
SHARED lock, a client whose EXCLUSIVE request was granted and that has not
released since is the only holder. -/
theorem exclusive_of_noUpgrade (cmds : List (Env C τ × Command C R Rid))
    (hno : (init : LockTable C R τ).EachStep NoUpgrade cmds) (c : C) (r : R)
    (hheld : HeldExclusively cmds c r) :
    ((init : LockTable C R τ).run cmds).holders r = {c} := by
  obtain ⟨before, env, cmd, after, rfl, hgrant, hafter⟩ := hheld
  have hstep := (EachStep.append hno).2.1
  have hwf : ((init : LockTable C R τ).run before).WellFormed := wellFormed_run before
  rw [run_append]
  refine (Exclusive.run (t := (((init : LockTable C R τ).run before).applyCommand env cmd).1)
    ?_ hafter).holders
  cases cmd with
  | acquire c' r' ty requestId =>
    obtain ⟨rfl, rfl, rfl, hst⟩ := hgrant
    exact exclusive_of_acquired hwf hstep hst
  | release c' r' =>
    obtain ⟨rfl, hc, req, hreq, hclient, hx⟩ := hgrant
    exact exclusive_of_handedOver hc hreq hclient hx
  | other => exact hgrant.elim

theorem exclusive_of_noUpgrade_queue :
    ((init : LockTable (Fin 2) ℕ ℕ).run
      [acq 2 0 7 .shared, acq 2 1 7 .exclusive, rel 2 0 7]).holders 7 = {1} :=
  exclusive_of_noUpgrade _ (by decide) 1 7
    ⟨[acq 2 0 7 .shared, acq 2 1 7 .exclusive], finEnv 2, .release 0 7, [], rfl,
      ⟨rfl, by decide, ⟨1, 7, .exclusive, 0⟩, by decide, rfl, rfl⟩, by simp⟩

/-- Two clients share a lock and one of them is granted it as EXCLUSIVE. -/
theorem upgrade_not_exclusive :
    HeldExclusively [acq 2 0 7 .shared, acq 2 1 7 .shared, acq 2 0 7 .exclusive] 0 7 ∧
      ((init : LockTable (Fin 2) ℕ ℕ).run
        [acq 2 0 7 .shared, acq 2 1 7 .shared, acq 2 0 7 .exclusive]).holders 7 ≠ {0} :=
  ⟨⟨[acq 2 0 7 .shared, acq 2 1 7 .shared], finEnv 2, .acquire 0 7 .exclusive none, [], rfl,
    ⟨rfl, rfl, rfl, by decide⟩, by simp⟩, by decide⟩

end Pynchronize.LockTable
