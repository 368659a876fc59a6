import Pynchronize.Lock.Invariant

/-!
# What a refused request leaves behind

A refusal takes its edges back with `remove_wait`, which drops everything that
is recorded for the client. The locks are always as before, the wait-for graph
exactly when nothing was recorded.
-/

namespace Pynchronize

open Lib

variable {C R Rid τ : Type*} [DecidableEq C]

/-! ## The graph -/

namespace DeadlockDetector

/-- The keys of the graph have an edge. -/
def Trimmed (d : DeadlockDetector C) : Prop := ∀ w s, d.waitForGraph.get? w = some s → s ≠ ∅

theorem Trimmed.addWait {d : DeadlockDetector C} (hd : d.Trimmed) (c : C) (holders : Finset C) :
    (d.addWait c holders).Trimmed := by
  unfold DeadlockDetector.addWait
  split
  · exact hd
  · rename_i hne
    intro w s hs
    have hs : (d.waitForGraph.set c _).get? w = some s := hs
    rw [Dict.get?_set] at hs
    split at hs
    · obtain rfl := Option.some.inj hs
      obtain ⟨x, hx⟩ := Finset.nonempty_iff_ne_empty.mpr hne
      exact Finset.nonempty_iff_ne_empty.mp ⟨x, Finset.mem_union_right _ hx⟩
    · exact hd w s hs

theorem Trimmed.removeWait {d : DeadlockDetector C} (hd : d.Trimmed) (c : C) :
    (d.removeWait c).Trimmed := by
  intro w s hs
  have hs : (d.waitForGraph.erase c).get? w = some s := hs
  rw [Dict.get?_erase] at hs
  split at hs
  · cases hs
  · exact hd w s hs

theorem trimmed_removeHolder (d : DeadlockDetector C) (c : C) : (d.removeHolder c).Trimmed := by
  intro w s hs
  have hs : (d.waitForGraph.filterMapVals _).get? w = some s := hs
  rw [Dict.get?_filterMapVals] at hs
  obtain ⟨old, -, hs⟩ := Option.bind_eq_some_iff.mp hs
  split at hs
  · cases hs
  · rename_i hne
    exact Option.some.inj hs ▸ hne

theorem Trimmed.get?_eq_none_iff {d : DeadlockDetector C} (hd : d.Trimmed) (c : C) :
    d.waitForGraph.get? c = none ↔ ∀ h, ¬ d.Edge c h := by
  unfold Edge neighbors
  cases hget : d.waitForGraph.get? c with
  | none => simp
  | some s =>
    obtain ⟨x, hx⟩ := Finset.nonempty_iff_ne_empty.mpr (hd c s hget)
    simp only [reduceCtorEq, Option.getD_some, false_iff, not_forall, not_not]
    exact ⟨x, hx⟩

/-- What `add_wait` and then `remove_wait` leave of the other keys. -/
theorem get?_removeWait_addWait (d : DeadlockDetector C) (c : C) (holders : Finset C) (w : C) :
    ((d.addWait c holders).removeWait c).waitForGraph.get? w =
      if w = c then none else d.waitForGraph.get? w := by
  show ((d.addWait c holders).waitForGraph.erase c).get? w = _
  rw [Dict.get?_erase]
  split
  · rfl
  · rename_i hne
    unfold addWait
    split
    · rfl
    · exact Dict.get?_set_ne _ _ (Ne.symm hne)

end DeadlockDetector

namespace LockTable

variable [DecidableEq R] [DecidableEq τ]

theorem trimmed_applyCommand (env : Env C τ) {t : LockTable C R τ}
    (ht : t.deadlockDetector.Trimmed) (cmd : Command C R Rid) :
    (t.applyCommand env cmd).1.deadlockDetector.Trimmed := by
  cases cmd with
  | acquire c r ty _ =>
    show (applyAcquire env t c r ty).1.deadlockDetector.Trimmed
    rcases applyAcquire_cases env t c r ty with ⟨-, he⟩ | ⟨-, -, he⟩ | ⟨-, -, he⟩
    · rw [he]
      exact ht.removeWait c
    · rw [he]
      exact (ht.addWait c _).removeWait c
    · rw [he]
      exact ht.addWait c _
  | release c r =>
    show (applyRelease t c r).1.deadlockDetector.Trimmed
    by_cases hc : c ∈ t.holders r
    · obtain ⟨lock, hg, hcl⟩ := exists_lock_of_mem_holders hc
      rw [applyRelease_held hg hcl]
      have hserved : ∀ (reqs : List (LockRequest C R τ)) (d : DeadlockDetector C), d.Trimmed →
          (reqs.foldl (fun d req => d.removeWait req.clientId) d).Trimmed := by
        intro reqs
        induction reqs with
        | nil => exact fun d hd => hd
        | cons req rest ih => exact fun d hd => ih _ (hd.removeWait req.clientId)
      exact hserved _ _ (DeadlockDetector.trimmed_removeHolder _ c)
    · rw [applyRelease_not_held hc]
      exact ht
  | other => exact ht

theorem trimmed_run (cmds : List (Env C τ × Command C R Rid)) :
    ((init : LockTable C R τ).run cmds).deadlockDetector.Trimmed :=
  run_preserves (I := fun t => t.deadlockDetector.Trimmed)
    (fun env _ cmd ht _ => trimmed_applyCommand env ht cmd)
    (fun w s hs => by cases hs) (eachStep_true _ cmds)

/-! ## The table -/

/-- `locks` and `wait_for_graph` compare equal; the order of a dict does not count. -/
def Equal (t t' : LockTable C R τ) : Prop :=
  (∀ r, t'.locks.get? r = t.locks.get? r) ∧
    ∀ w, t'.deadlockDetector.waitForGraph.get? w = t.deadlockDetector.waitForGraph.get? w

omit [DecidableEq τ] in
/-- A refusal stores the lock as it was. -/
theorem get?_locks_refused {t : LockTable C R τ} {c : C} {r : R} {ty : LockType}
    (hcan : (t.lockOrNew r ty).canAcquire c ty = false) (r' : R) :
    (t.locks.set r (t.lockOrNew r ty)).get? r' = t.locks.get? r' := by
  rw [Dict.get?_set]
  split
  · rename_i heq
    subst heq
    exact (get?_of_holders_ne_empty ty (holders_ne_empty_of_canAcquire_eq_false hcan).1).symm
  · rfl

/-- **A refused request changes nothing exactly when its client had no edge.** -/
theorem refused_unchanged_iff (cmds : List (Env C τ × Command C R Rid)) (env : Env C τ) (c : C)
    (r : R) (ty : LockType) (requestId : Option Rid)
    (hrefused : (((init : LockTable C R τ).run cmds).applyCommand env
      (.acquire c r ty requestId)).2 = some .deadlock) :
    ((init : LockTable C R τ).run cmds).Equal
        (((init : LockTable C R τ).run cmds).applyCommand env (.acquire c r ty requestId)).1 ↔
      ∀ h, ¬ ((init : LockTable C R τ).run cmds).deadlockDetector.Edge c h := by
  have htrimmed := trimmed_run cmds
  generalize (init : LockTable C R τ).run cmds = t at hrefused htrimmed ⊢
  have hrefused : some (applyAcquire env t c r ty).2 = some .deadlock := hrefused
  show t.Equal (applyAcquire env t c r ty).1 ↔ _
  rw [← htrimmed.get?_eq_none_iff]
  rcases applyAcquire_cases env t c r ty with ⟨-, he⟩ | ⟨hcan, -, he⟩ | ⟨-, -, he⟩
  · rw [he] at hrefused
    cases hrefused
  · rw [he]
    have hgraph := t.deadlockDetector.get?_removeWait_addWait c (t.holders r)
    constructor
    · rintro ⟨-, hsame⟩
      have hc := hgraph c
      rw [if_pos rfl] at hc
      exact (hsame c).symm.trans hc
    · intro hnone
      refine ⟨get?_locks_refused hcan, fun w => (hgraph w).trans ?_⟩
      split
      · rename_i heq
        rw [heq, hnone]
      · rfl
  · rw [he] at hrefused
    cases hrefused

/-- Clients 0 and 1 hold a resource each and 1 waits for 0, which has no request queued. -/
theorem refused_unchanged_iff_crossing :
    ((init : LockTable (Fin 2) ℕ ℕ).run
      [acq 2 0 1 .exclusive, acq 2 1 2 .exclusive, acq 2 1 1 .exclusive]).Equal
        (((init : LockTable (Fin 2) ℕ ℕ).run
          [acq 2 0 1 .exclusive, acq 2 1 2 .exclusive, acq 2 1 1 .exclusive]).applyCommand
            (finEnv 2) (.acquire 0 2 .exclusive (none : Option ℕ))).1 :=
  (refused_unchanged_iff _ (finEnv 2) 0 2 .exclusive none (by decide)).mpr (by decide)

/-- Client 0 holds resource 1, for which 2 waits, and is queued behind 1 for resource 2. When its
    request for resource 3 of client 2 is refused, its wait for client 1 is forgotten. -/
theorem refusal_forgets_wait :
    let t := (init : LockTable (Fin 3) ℕ ℕ).run
      [acq 3 0 1 .exclusive, acq 3 1 2 .exclusive, acq 3 2 3 .exclusive, acq 3 2 1 .exclusive,
        acq 3 0 2 .exclusive]
    let refused := t.applyCommand (finEnv 3) (.acquire 0 3 .exclusive (none : Option ℕ))
    refused.2 = some .deadlock ∧ ¬ t.Equal refused.1 := by
  refine ⟨by decide, fun ⟨_, hgraph⟩ => ?_⟩
  have hwait := hgraph 0
  revert hwait
  decide

end LockTable

end Pynchronize
