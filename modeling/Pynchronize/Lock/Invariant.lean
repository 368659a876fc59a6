import Mathlib.Data.List.TakeWhile
import Pynchronize.Lock.TableStep

/-!
# The lock-table invariant and the queue hand-off

* `wellFormed_run`: after every sequence of commands every lock is stored
  under its own id, is held, has one holder if it is EXCLUSIVE, and has an
  EXCLUSIVE request at the head of its queue if it is SHARED;
* `handsOver_of_last_holder`: a release that empties the holders grants exactly
  the longest jointly grantable prefix of the queue;
* `not_mem_holders_applyRelease_iff`: when a release does release.
-/

namespace Pynchronize

open Lib

variable {C R Rid τ : Type*}

/-- What holds of every lock in the table between two commands. -/
structure Lock.WellFormed (r : R) (lock : Lock C R τ) : Prop where
  stored : lock.resourceId = r
  held : lock.holders ≠ ∅
  exclusive : lock.lockType = .exclusive → lock.holders.card = 1
  shared : lock.lockType = .shared → ∀ req ∈ lock.waiting.head?, req.lockType = .exclusive

/-- Requests that may hold a lock at the same time. -/
def JointlyGrantable (reqs : List (LockRequest C R τ)) : Prop :=
  reqs.length ≤ 1 ∨ ∀ req ∈ reqs, req.lockType = .shared

namespace Lock

theorem jointlyGrantable_grantablePrefix (reqs : List (LockRequest C R τ)) :
    JointlyGrantable (grantablePrefix reqs) := by
  cases reqs with
  | nil => exact Or.inl (by simp [grantablePrefix])
  | cons next rest =>
    by_cases hx : next.lockType = .exclusive
    · exact Or.inl (by simp [grantablePrefix, hx])
    · right
      rw [grantablePrefix_of_shared hx, sharedRequests_eq_takeWhile]
      intro req hreq
      simpa using List.mem_takeWhile_imp hreq

/-- No longer prefix of the queue can be granted together. -/
theorem length_le_grantablePrefix {reqs p : List (LockRequest C R τ)} (hp : p <+: reqs)
    (hj : JointlyGrantable p) : p.length ≤ (grantablePrefix reqs).length := by
  cases reqs with
  | nil => simpa [grantablePrefix] using hp.length_le
  | cons next rest =>
    cases p with
    | nil => simp
    | cons a p =>
      obtain ⟨rfl, hp'⟩ := List.cons_prefix_cons.mp hp
      have hlen : 1 ≤ (grantablePrefix (a :: rest)).length := by
        have hne : grantablePrefix (a :: rest) ≠ [] := grantablePrefix_ne_nil (by simp)
        exact List.length_pos_iff.mpr hne
      rcases hj with hone | hshared
      · exact hone.trans hlen
      · have ha : a.lockType ≠ .exclusive := by
          rw [hshared a (List.mem_cons_self ..)]; decide
        rw [grantablePrefix_of_shared ha, sharedRequests_eq_takeWhile]
        obtain ⟨tail, htail⟩ := hp
        rw [← htail, List.takeWhile_append_of_pos (fun x hx => by simpa using hshared x hx)]
        simp

end Lock

/-- What follows a leading run of SHARED requests is EXCLUSIVE. -/
theorem head_after_sharedRequests (reqs : List (LockRequest C R τ)) :
    ∀ req ∈ (reqs.drop (Lock.sharedRequests reqs).length).head?, req.lockType = .exclusive := by
  induction reqs with
  | nil => simp
  | cons next rest ih =>
    cases hty : next.lockType with
    | shared => simpa [Lock.sharedRequests, hty] using ih
    | exclusive => simp [Lock.sharedRequests, hty]

theorem Lock.WellFormed.afterRelease [DecidableEq C] {lock : Lock C R τ} {c : C} {r : R}
    (hwf : lock.WellFormed r)
    (hne : (lock.afterRelease c).holders ≠ ∅) : (lock.afterRelease c).WellFormed r := by
  refine ⟨hwf.stored, hne, ?_, ?_⟩
  · intro hx
    by_cases he : lock.holders.erase c = ∅
    · cases hw : lock.waiting with
      | nil => exact absurd ((lock.afterRelease_holders_eq_empty c).mpr ⟨he, hw⟩) hne
      | cons next rest =>
        have hnext : next.lockType = .exclusive := by
          simpa [Lock.afterRelease, Lock.handedOver, he, hw, Lock.head?_grantablePrefix] using hx
        simp [Lock.afterRelease, Lock.handedOver, he, hw, Lock.grantablePrefix, hnext,
          Lock.clients]
    · -- the only holder left keeps the lock
      have hxl : lock.lockType = .exclusive := by
        simpa [Lock.afterRelease, Lock.handedOver, he] using hx
      have hle := Finset.card_le_card (Finset.erase_subset c lock.holders)
      have hpos := Finset.card_pos.mpr (Finset.nonempty_iff_ne_empty.mpr he)
      have hone := hwf.exclusive hxl
      simp only [Lock.afterRelease, Lock.handedOver, he, ↓reduceIte, Lock.clients, List.map_nil,
        List.toFinset_nil, Finset.union_empty]
      omega
  · intro hs
    by_cases he : lock.holders.erase c = ∅
    · cases hw : lock.waiting with
      | nil => simp [Lock.afterRelease, hw]
      | cons next rest =>
        have hnext : next.lockType = .shared := by
          simpa [Lock.afterRelease, Lock.handedOver, he, hw, Lock.head?_grantablePrefix] using hs
        have hhead := head_after_sharedRequests (next :: rest)
        rw [← Lock.grantablePrefix_of_shared (by simp [hnext])] at hhead
        simpa [Lock.afterRelease, Lock.handedOver, he, hw] using hhead
    · have hsl : lock.lockType = .shared := by
        simpa [Lock.afterRelease, Lock.handedOver, he] using hs
      simpa [Lock.afterRelease, Lock.handedOver, he] using hwf.shared hsl

namespace LockTable

variable [DecidableEq R]

def WellFormed (t : LockTable C R τ) : Prop :=
  ∀ r lock, t.locks.get? r = some lock → lock.WellFormed r

theorem wellFormed_init : (init : LockTable C R τ).WellFormed := by
  intro r lock h
  simp [init] at h

theorem WellFormed.set {t : LockTable C R τ} (ht : t.WellFormed) {r : R} {lock : Lock C R τ}
    (hl : lock.WellFormed r) (d : DeadlockDetector C) :
    (⟨t.locks.set r lock, d⟩ : LockTable C R τ).WellFormed := by
  intro r' lock' h
  rw [Dict.get?_set] at h
  split at h
  · rename_i hr
    cases h
    exact hr ▸ hl
  · exact ht r' lock' h

/-- A lock somebody holds is in the table, so `lockOrNew` creates nothing. -/
theorem get?_of_holders_ne_empty {t : LockTable C R τ} {r : R} (ty : LockType)
    (h : t.holders r ≠ ∅) : t.locks.get? r = some (t.lockOrNew r ty) := by
  unfold holders at h
  unfold lockOrNew
  cases hg : t.locks.get? r with
  | none => simp [hg] at h
  | some lock => rfl

theorem WellFormed.queue_empty_of_unheld {t : LockTable C R τ} (ht : t.WellFormed) {r : R}
    (h : t.holders r = ∅) : t.locks.get? r = none := by
  cases hg : t.locks.get? r with
  | none => rfl
  | some lock =>
    rw [holders_of_get? hg] at h
    exact absurd h (ht r lock hg).held

variable [DecidableEq C]

theorem holders_ne_empty_of_canAcquire_eq_false {t : LockTable C R τ} {c : C} {r : R}
    {ty : LockType} (h : (t.lockOrNew r ty).canAcquire c ty = false) :
    t.holders r ≠ ∅ ∧ c ∉ t.holders r ∧
      ¬ ((t.lockOrNew r ty).lockType = .shared ∧ ty = .shared) := by
  simp only [Lock.canAcquire, holders_lockOrNew, decide_eq_false_iff_not, not_or] at h
  exact ⟨h.1, h.2.2, h.2.1⟩

theorem WellFormed.grantedLock {t : LockTable C R τ} (ht : t.WellFormed) {c : C} {r : R}
    {ty : LockType} (hcan : (t.lockOrNew r ty).canAcquire c ty = true) :
    (t.grantedLock c r ty).WellFormed r := by
  by_cases he : t.holders r = ∅
  · -- the lock is created for this request
    have hnone := ht.queue_empty_of_unheld he
    have hnew : t.lockOrNew r ty = ⟨r, ty, ∅, []⟩ := by simp [lockOrNew, hnone]
    refine ⟨?_, ?_, ?_, ?_⟩ <;> simp [LockTable.grantedLock, he, hnew]
  · have hg := get?_of_holders_ne_empty ty he
    have hwf := ht r _ hg
    refine ⟨by simpa [LockTable.grantedLock] using hwf.stored, by simp [LockTable.grantedLock],
      ?_, ?_⟩
    · intro hx
      simp only [LockTable.grantedLock, he, ↓reduceIte] at hx ⊢
      -- an EXCLUSIVE lock lets in only its holder
      have hmem : c ∈ t.holders r := by
        simpa [Lock.canAcquire, he, hx] using hcan
      rw [Finset.insert_eq_of_mem hmem]
      simpa using hwf.exclusive hx
    · intro hs
      simp only [LockTable.grantedLock, he, ↓reduceIte] at hs ⊢
      exact hwf.shared hs

theorem WellFormed.queuedLock {t : LockTable C R τ} (ht : t.WellFormed) {c : C} {r : R}
    {ty : LockType} (now : τ) (hcan : (t.lockOrNew r ty).canAcquire c ty = false) :
    (t.queuedLock c r ty now).WellFormed r := by
  obtain ⟨hne, _, hshared⟩ := holders_ne_empty_of_canAcquire_eq_false hcan
  have hwf := ht r _ (get?_of_holders_ne_empty ty hne)
  refine ⟨hwf.stored, hwf.held, hwf.exclusive, ?_⟩
  intro hs req hreq
  have hs' : (t.lockOrNew r ty).lockType = .shared := hs
  have hw := hwf.shared hs'
  simp only [LockTable.queuedLock, waiting_lockOrNew] at hw hreq
  cases hq : t.waiting r with
  | nil =>
    -- a SHARED request would have joined, so the one that starts the queue is EXCLUSIVE
    obtain rfl : _ = req := by simpa [hq] using hreq
    cases hty : ty with
    | exclusive => rfl
    | shared => exact absurd ⟨hs', hty⟩ hshared
  | cons a rest =>
    rw [hq] at hw hreq
    exact hw req (by simpa using hreq)

theorem wellFormed_applyAcquire (env : Env C τ) {t : LockTable C R τ} (ht : t.WellFormed) (c : C)
    (r : R) (ty : LockType) : (applyAcquire env t c r ty).1.WellFormed := by
  rcases applyAcquire_cases env t c r ty with ⟨hcan, he⟩ | ⟨hcan, _, he⟩ | ⟨hcan, _, he⟩
  · rw [he]
    exact ht.set (ht.grantedLock hcan) _
  · rw [he]
    have hne := (holders_ne_empty_of_canAcquire_eq_false hcan).1
    exact ht.set (ht r _ (get?_of_holders_ne_empty ty hne)) _
  · rw [he]
    exact ht.set (ht.queuedLock env.now hcan) _

variable [DecidableEq τ]

theorem wellFormed_applyRelease {t : LockTable C R τ} (ht : t.WellFormed) (c : C) (r : R) :
    (applyRelease t c r).1.WellFormed := by
  by_cases hc : c ∈ t.holders r
  · obtain ⟨lock, hg, hcl⟩ := exists_lock_of_mem_holders hc
    rw [applyRelease_held hg hcl]
    split
    · intro r' lock' h
      rw [Dict.get?_erase] at h
      split at h
      · simp at h
      · exact ht r' lock' h
    · rename_i hne
      exact ht.set ((ht r lock hg).afterRelease hne) _
  · rw [applyRelease_not_held hc]
    exact ht

theorem wellFormed_applyCommand (env : Env C τ) {t : LockTable C R τ} (ht : t.WellFormed)
    (cmd : Command C R Rid) : (t.applyCommand env cmd).1.WellFormed := by
  cases cmd with
  | acquire c r ty _ => exact wellFormed_applyAcquire env ht c r ty
  | release c r => exact wellFormed_applyRelease ht c r
  | other => exact ht

theorem wellFormed_run (cmds : List (Env C τ × Command C R Rid)) :
    ((init : LockTable C R τ).run cmds).WellFormed :=
  run_preserves (I := WellFormed) (fun env _ cmd ht _ => wellFormed_applyCommand env ht cmd)
    wellFormed_init (eachStep_true _ cmds)

/-! ## The hand-off, read off a release -/

/-- The requests that a release of `r` by its holder `c` takes off the queue. -/
def handedOver (t : LockTable C R τ) (c : C) (r : R) : List (LockRequest C R τ) :=
  if (t.holders r).erase c = ∅ then Lock.grantablePrefix (t.waiting r) else []

/-- A lock that has left the table is one that nobody holds or waits for. -/
theorem lock_applyRelease {t : LockTable C R τ} {c : C} {r : R} (hc : c ∈ t.holders r) (r' : R) :
    (applyRelease t c r).1.holders r' =
        (if r = r' then (t.holders r).erase c ∪ Lock.clients (t.handedOver c r)
          else t.holders r') ∧
      (applyRelease t c r).1.waiting r' =
        if r = r' then (t.waiting r).drop (t.handedOver c r).length else t.waiting r' := by
  obtain ⟨lock, hg, hcl⟩ := exists_lock_of_mem_holders hc
  rw [applyRelease_held hg hcl, handedOver, holders_of_get? hg, waiting_of_get? hg]
  by_cases he : (lock.afterRelease c).holders = ∅
  · obtain ⟨herase, hw⟩ := (lock.afterRelease_holders_eq_empty c).mp he
    by_cases hr : r = r'
    · subst hr
      simp [he, herase, hw, holders, waiting, Lock.grantablePrefix, Lock.clients]
    · simp [he, hr, holders, waiting, Dict.get?_erase_ne _ (Ne.symm hr)]
  · rw [if_neg he, holders_set, waiting_set]
    exact ⟨rfl, rfl⟩

theorem holders_applyRelease {t : LockTable C R τ} {c : C} {r : R} (hc : c ∈ t.holders r) (r' : R) :
    (applyRelease t c r).1.holders r' =
      if r = r' then (t.holders r).erase c ∪ Lock.clients (t.handedOver c r) else t.holders r' :=
  (lock_applyRelease hc r').1

theorem waiting_applyRelease {t : LockTable C R τ} {c : C} {r : R} (hc : c ∈ t.holders r) (r' : R) :
    (applyRelease t c r).1.waiting r' =
      if r = r' then (t.waiting r).drop (t.handedOver c r).length else t.waiting r' :=
  (lock_applyRelease hc r').2

theorem edge_applyRelease {t : LockTable C R τ} {c : C} {r : R} (hc : c ∈ t.holders r) (w h : C) :
    (applyRelease t c r).1.deadlockDetector.Edge w h ↔
      t.deadlockDetector.Edge w h ∧ h ≠ c ∧ w ∉ Lock.clients (t.handedOver c r) := by
  obtain ⟨lock, hg, hcl⟩ := exists_lock_of_mem_holders hc
  rw [applyRelease_held hg hcl, handedOver, holders_of_get? hg, waiting_of_get? hg]
  exact edge_releaseDetector _ _ _ _ _

/-- The longest jointly grantable prefix of `waiting(r)` is what a release of
`r` by `c` removes from the queue and makes the holders. -/
def HandsOver (t : LockTable C R τ) (c : C) (r : R) : Prop :=
  ∃ p, JointlyGrantable p ∧ p <+: t.waiting r ∧
    (∀ q, q <+: t.waiting r → JointlyGrantable q → q.length ≤ p.length) ∧
    (applyRelease t c r).1.holders r = Lock.clients p ∧
    t.waiting r = p ++ (applyRelease t c r).1.waiting r

theorem handsOver_of_last_holder {t : LockTable C R τ} {c : C} {r : R} (hc : t.holders r = {c}) :
    t.HandsOver c r := by
  have hmem : c ∈ t.holders r := by simp [hc]
  have herase : (t.holders r).erase c = ∅ := by simp [hc]
  refine ⟨Lock.grantablePrefix (t.waiting r), Lock.jointlyGrantable_grantablePrefix _,
    Lock.grantablePrefix_isPrefix _, fun q hq hj => Lock.length_le_grantablePrefix hq hj, ?_, ?_⟩
  · rw [holders_applyRelease hmem, handedOver, herase]
    simp
  · rw [waiting_applyRelease hmem, handedOver, herase]
    simpa using (Lock.grantablePrefix_append_drop (t.waiting r)).symm

/-- **Lock-table invariant and hand-off.** After every sequence of commands the
table is well formed, and a release by the last holder of a resource hands it
over to the longest jointly grantable prefix of its queue. -/
theorem lock_table_invariant (cmds : List (Env C τ × Command C R Rid)) :
    ((init : LockTable C R τ).run cmds).WellFormed ∧
      ∀ c r, ((init : LockTable C R τ).run cmds).holders r = {c} →
        ((init : LockTable C R τ).run cmds).HandsOver c r :=
  ⟨wellFormed_run cmds, fun _ _ hc => handsOver_of_last_holder hc⟩

/-! ## When a release releases -/

/-- **A release leaves its client holding the lock exactly when the client was
the only holder and has a request in the part of the queue that is served.** -/
theorem not_mem_holders_applyRelease_iff (t : LockTable C R τ) (c : C) (r : R) :
    c ∉ (applyRelease t c r).1.holders r ↔
      ¬ (t.holders r = {c} ∧ ∃ req ∈ Lock.grantablePrefix (t.waiting r), req.clientId = c) := by
  by_cases hc : c ∈ t.holders r
  · rw [holders_applyRelease hc, handedOver]
    have herase : (t.holders r).erase c = ∅ ↔ t.holders r = {c} := by
      rw [Finset.erase_eq_empty_iff]
      exact ⟨fun h => h.resolve_left (fun e => by simp [e] at hc), Or.inr⟩
    by_cases he : (t.holders r).erase c = ∅
    · simp [herase.mp he]
    · have hne : t.holders r ≠ {c} := fun h => he (herase.mpr h)
      simp [he, hne, Lock.clients]
  · have hne : t.holders r ≠ {c} := fun h => hc (by simp [h])
    simp [applyRelease_not_held hc, hc, hne]

/-- Client 1 asks twice while client 0 holds the lock. When it is served and
releases, its second request is served at once. -/
theorem release_regrants_queued_repeat :
    1 ∈ (applyRelease ((init : LockTable (Fin 2) ℕ ℕ).run
      [acq 2 0 7 .exclusive, acq 2 1 7 .exclusive, acq 2 1 7 .exclusive, rel 2 0 7]) 1 7).1.holders
        7 := by
  decide

end LockTable

end Pynchronize
