import Pynchronize.Lock.Invariant

/-!
# The wait-for graph and the lock table

`wait_for_graph` against the true wait-for relation `WaitsFor` of the table.

* `deadlock_detection_sound`: every edge is real, the graph stays acyclic, and
  a request is refused only if it would have closed a cycle of real waits;
* the converse fails (`deadlock_undetected`): grants, refusals and releases
  drop edges of a client as a whole, and a hand-off adds none for those who
  keep waiting. `complete_applyCommand_iff` says for each command when no real
  wait is lost, and `no_deadlock_of_keepsEdges` that nothing else goes wrong.

`detect_cycle` is taken to return: the limit that the interpreter sets to the
depth of its recursion is left out.
-/

namespace Pynchronize.LockTable

open Lib Relation

variable {C R Rid τ : Type*} [DecidableEq C] [DecidableEq R]

def edge (t : LockTable C R τ) (w h : C) : Prop := t.deadlockDetector.Edge w h

/-- Every edge of the graph is a real wait. -/
def Sound (t : LockTable C R τ) : Prop := ∀ w h, t.edge w h → t.WaitsFor w h

/-- Every real wait is an edge of the graph. -/
def Complete (t : LockTable C R τ) : Prop := ∀ w h, t.WaitsFor w h → t.edge w h

/-- The table in which the request has been queued. -/
def enqueue (t : LockTable C R τ) (now : τ) (c : C) (r : R) (ty : LockType) : LockTable C R τ :=
  ⟨t.locks.set r (t.queuedLock c r ty now), t.deadlockDetector⟩

instance (t : LockTable C R τ) (w : C) (r : R) : Decidable (t.Queued w r) :=
  inferInstanceAs (Decidable (∃ req ∈ t.waiting r, req.clientId = w))

omit [DecidableEq C] in
/-- Requests are queued on the resources of the table only. -/
theorem Queued.mem_keys {t : LockTable C R τ} {w : C} {r : R} (h : t.Queued w r) :
    r ∈ t.locks.keys := by
  obtain ⟨req, hreq, -⟩ := h
  cases hl : t.locks.get? r with
  | some l => exact Dict.mem_keys_of_get? hl
  | none => simp [waiting, hl] at hreq

omit [DecidableEq C] in
theorem waitsFor_iff_keys (t : LockTable C R τ) (w h : C) :
    t.WaitsFor w h ↔ ∃ r ∈ t.locks.keys, t.Queued w r ∧ h ∈ t.holders r ∧ h ≠ w :=
  ⟨fun ⟨r, hq, hh⟩ => ⟨r, hq.mem_keys, hq, hh⟩, fun ⟨r, _, hh⟩ => ⟨r, hh⟩⟩

instance (t : LockTable C R τ) (w h : C) : Decidable (t.WaitsFor w h) :=
  decidable_of_iff _ (t.waitsFor_iff_keys w h).symm

/-! ## The true relation after each kind of command -/

theorem holders_grantedLock_set (t : LockTable C R τ) (c : C) (r r' : R) (ty : LockType)
    (d : DeadlockDetector C) :
    (⟨t.locks.set r (t.grantedLock c r ty), d⟩ : LockTable C R τ).holders r' =
      if r = r' then insert c (t.holders r) else t.holders r' := by
  simp [grantedLock]

theorem waiting_grantedLock_set (t : LockTable C R τ) (c : C) (r r' : R) (ty : LockType)
    (d : DeadlockDetector C) :
    (⟨t.locks.set r (t.grantedLock c r ty), d⟩ : LockTable C R τ).waiting r' = t.waiting r' := by
  by_cases h : r = r'
  · subst h; simp [grantedLock]
  · simp [h]

theorem waitsFor_granted (t : LockTable C R τ) (c : C) (r : R) (ty : LockType)
    (d : DeadlockDetector C) (w h : C) :
    (⟨t.locks.set r (t.grantedLock c r ty), d⟩ : LockTable C R τ).WaitsFor w h ↔
      t.WaitsFor w h ∨ (h = c ∧ t.Queued w r ∧ h ≠ w) := by
  simp only [WaitsFor, Queued, waiting_grantedLock_set, holders_grantedLock_set]
  constructor
  · rintro ⟨r', hq, hh, hne⟩
    split at hh
    · rename_i hr
      subst hr
      rcases Finset.mem_insert.mp hh with rfl | hh
      · exact Or.inr ⟨rfl, hq, hne⟩
      · exact Or.inl ⟨r, hq, hh, hne⟩
    · exact Or.inl ⟨r', hq, hh, hne⟩
  · rintro (⟨r', hq, hh, hne⟩ | ⟨rfl, hq, hne⟩)
    · refine ⟨r', hq, ?_, hne⟩
      split
      · rename_i hr
        exact Finset.mem_insert_of_mem (hr ▸ hh)
      · exact hh
    · exact ⟨r, hq, by simp, hne⟩

omit [DecidableEq C] in
theorem waitsFor_refused (t : LockTable C R τ) (r : R) (ty : LockType) (d : DeadlockDetector C)
    (w h : C) :
    (⟨t.locks.set r (t.lockOrNew r ty), d⟩ : LockTable C R τ).WaitsFor w h ↔ t.WaitsFor w h := by
  have hh : ∀ r', (⟨t.locks.set r (t.lockOrNew r ty), d⟩ : LockTable C R τ).holders r' =
      t.holders r' := by
    intro r'
    by_cases hr : r = r'
    · subst hr; simp
    · simp [hr]
  have hw : ∀ r', (⟨t.locks.set r (t.lockOrNew r ty), d⟩ : LockTable C R τ).waiting r' =
      t.waiting r' := by
    intro r'
    by_cases hr : r = r'
    · subst hr; simp
    · simp [hr]
  simp only [WaitsFor, Queued, hh, hw]

omit [DecidableEq C] in
theorem waitsFor_queued (t : LockTable C R τ) (c : C) (r : R) (ty : LockType) (now : τ)
    (d : DeadlockDetector C) (w h : C) :
    (⟨t.locks.set r (t.queuedLock c r ty now), d⟩ : LockTable C R τ).WaitsFor w h ↔
      t.WaitsFor w h ∨ (w = c ∧ h ∈ t.holders r ∧ h ≠ c) := by
  have hh : ∀ r', (⟨t.locks.set r (t.queuedLock c r ty now), d⟩ : LockTable C R τ).holders r' =
      t.holders r' := by
    intro r'
    by_cases hr : r = r'
    · subst hr; simp [queuedLock]
    · simp [hr]
  simp only [WaitsFor, hh]
  constructor
  · rintro ⟨r', ⟨req, hreq, hw⟩, hm, hne⟩
    by_cases hr : r = r'
    · subst hr
      simp only [waiting_set, ↓reduceIte, queuedLock, List.mem_append, List.mem_singleton] at hreq
      rcases hreq with hreq | rfl
      · exact Or.inl ⟨r, ⟨req, hreq, hw⟩, hm, hne⟩
      · obtain rfl : c = w := hw
        exact Or.inr ⟨rfl, hm, hne⟩
    · simp only [waiting_set, hr, ↓reduceIte] at hreq
      exact Or.inl ⟨r', ⟨req, hreq, hw⟩, hm, hne⟩
  · rintro (⟨r', ⟨req, hreq, hw⟩, hm, hne⟩ | ⟨rfl, hm, hne⟩)
    · refine ⟨r', ⟨req, ?_, hw⟩, hm, hne⟩
      by_cases hr : r = r'
      · subst hr; simp [queuedLock, hreq]
      · simpa [hr] using hreq
    · exact ⟨r, ⟨⟨w, r, ty, now⟩, by simp [queuedLock], rfl⟩, hm, hne⟩

section Release

theorem handedOver_append_drop (t : LockTable C R τ) (c : C) (r : R) :
    t.handedOver c r ++ (t.waiting r).drop (t.handedOver c r).length = t.waiting r := by
  unfold handedOver
  split
  · exact Lock.grantablePrefix_append_drop _
  · rfl

/-- The clients still waiting for `r` after `c` has released it. -/
def Remaining (t : LockTable C R τ) (c : C) (r : R) (w : C) : Prop :=
  ∃ req ∈ (t.waiting r).drop (t.handedOver c r).length, req.clientId = w

instance (t : LockTable C R τ) (c : C) (r : R) (w : C) : Decidable (t.Remaining c r w) :=
  inferInstanceAs
    (Decidable (∃ req ∈ (t.waiting r).drop (t.handedOver c r).length, req.clientId = w))

theorem Remaining.queued {t : LockTable C R τ} {c : C} {r : R} {w : C} (h : t.Remaining c r w) :
    t.Queued w r := by
  obtain ⟨req, hreq, hw⟩ := h
  exact ⟨req, List.mem_of_mem_drop hreq, hw⟩

theorem queued_iff_remaining (t : LockTable C R τ) (c : C) (r : R) (w : C) :
    t.Queued w r ↔ w ∈ Lock.clients (t.handedOver c r) ∨ t.Remaining c r w := by
  unfold Queued Remaining
  rw [Lock.mem_clients]
  conv_lhs => rw [← t.handedOver_append_drop c r]
  simp only [List.mem_append, or_and_right, exists_or]

variable [DecidableEq τ]

theorem waitsFor_applyRelease {t : LockTable C R τ} {c : C} {r : R} (hc : c ∈ t.holders r)
    (w h : C) :
    (applyRelease t c r).1.WaitsFor w h ↔
      (∃ r', r' ≠ r ∧ t.Queued w r' ∧ h ∈ t.holders r' ∧ h ≠ w) ∨
      (t.Remaining c r w ∧
        (h ∈ (t.holders r).erase c ∨ h ∈ Lock.clients (t.handedOver c r)) ∧ h ≠ w) := by
  simp only [WaitsFor, Queued, Remaining, holders_applyRelease hc, waiting_applyRelease hc]
  constructor
  · rintro ⟨r', hq, hh, hne⟩
    by_cases hr : r = r'
    · subst hr
      simp only [↓reduceIte, Finset.mem_union] at hq hh
      exact Or.inr ⟨hq, hh, hne⟩
    · simp only [hr, ↓reduceIte] at hq hh
      exact Or.inl ⟨r', fun e => hr e.symm, hq, hh, hne⟩
  · rintro (⟨r', hr, hq, hh, hne⟩ | ⟨hq, hh, hne⟩)
    · have hr' : r ≠ r' := fun e => hr e.symm
      exact ⟨r', by simpa [hr'] using hq, by simpa [hr'] using hh, hne⟩
    · exact ⟨r, by simpa using hq, by simpa using hh, hne⟩

end Release

/-! ## Soundness -/

theorem edge_waiting (t : LockTable C R τ) (c : C) (r : R) {w h : C}
    (he : (t.waitingDetector c r).Edge w h) : t.edge w h ∨ w = c := by
  rcases (edge_waitingDetector t c r w h).mp he with h | ⟨rfl, _⟩
  · exact Or.inl h
  · exact Or.inr rfl

theorem sound_applyAcquire (env : Env C τ) {t : LockTable C R τ} (ht : t.Sound)
    (hac : Acyclic t.edge) (c : C) (r : R) (ty : LockType) :
    (applyAcquire env t c r ty).1.Sound ∧ Acyclic (applyAcquire env t c r ty).1.edge := by
  rcases applyAcquire_cases env t c r ty with ⟨hcan, he⟩ | ⟨hcan, _, he⟩ | ⟨hcan, hcyc, he⟩ <;>
    rw [he]
  · -- granted: the client's edges go, the others are as real as before
    refine ⟨fun w h hwh => ?_, hac.mono fun w h hwh => ?_⟩
    · have hold : t.edge w h := ((DeadlockDetector.edge_removeWait _ _ _ _).mp hwh).1
      exact (waitsFor_granted _ _ _ _ _ _ _).mpr (Or.inl (ht w h hold))
    · exact ((DeadlockDetector.edge_removeWait _ _ _ _).mp hwh).1
  · -- refused: at most the old edges are left
    have hold : ∀ w h, ((t.waitingDetector c r).removeWait c).Edge w h → t.edge w h := by
      intro w h hwh
      obtain ⟨hwh, hne⟩ := (DeadlockDetector.edge_removeWait _ _ _ _).mp hwh
      exact (t.edge_waiting c r hwh).resolve_right hne
    exact ⟨fun w h hwh => (waitsFor_refused _ _ _ _ _ _).mpr (ht w h (hold w h hwh)),
      hac.mono hold⟩
  · -- queued: the new edges are those of the request, and they close no cycle
    refine ⟨fun w h hwh => ?_, ?_⟩
    · refine (waitsFor_queued _ _ _ _ _ _ _ _).mpr ?_
      rcases (edge_waitingDetector t c r w h).mp hwh with hold | hnew
      · exact Or.inl (ht w h hold)
      · exact Or.inr hnew
    · have hno : ¬ TransGen (t.waitingDetector c r).Edge c c := fun h => by
        have := (DeadlockDetector.detectCycle_isSome_iff_self env.order hac
          fun a b => t.edge_waiting c r).mpr h
        simp [hcyc] at this
      exact acyclic_of_new_source hac (fun a b => t.edge_waiting c r) hno

/-- A refused request would have closed a cycle of real waits through its client. -/
theorem cycle_of_deadlock {env : Env C τ} {t : LockTable C R τ} (ht : t.Sound)
    (hac : Acyclic t.edge) {c : C} {r : R} {ty : LockType}
    (hst : (applyAcquire env t c r ty).2 = .deadlock) :
    TransGen (t.enqueue env.now c r ty).WaitsFor c c := by
  rcases applyAcquire_cases env t c r ty with ⟨_, he⟩ | ⟨_, hcyc, _⟩ | ⟨_, _, he⟩
  · simp [he] at hst
  · have hself : TransGen (t.waitingDetector c r).Edge c c :=
      (DeadlockDetector.detectCycle_isSome_iff_self env.order hac
        fun a b => t.edge_waiting c r).mp hcyc
    refine TransGen.mono (fun w h hwh => ?_) c c hself
    refine (waitsFor_queued _ _ _ _ _ _ _ _).mpr ?_
    rcases (edge_waitingDetector t c r w h).mp hwh with hold | hnew
    · exact Or.inl (ht w h hold)
    · exact Or.inr hnew
  · simp [he] at hst

section SoundRun

variable [DecidableEq τ]

theorem sound_applyRelease {t : LockTable C R τ} (ht : t.Sound) (hac : Acyclic t.edge) (c : C)
    (r : R) : (applyRelease t c r).1.Sound ∧ Acyclic (applyRelease t c r).1.edge := by
  by_cases hc : c ∈ t.holders r
  · refine ⟨fun w h hwh => ?_, hac.mono fun w h hwh => ((edge_applyRelease hc w h).mp hwh).1⟩
    obtain ⟨hold, hne, hnot⟩ := (edge_applyRelease hc w h).mp hwh
    obtain ⟨r', hq, hh, hhw⟩ := ht w h hold
    refine (waitsFor_applyRelease hc w h).mpr ?_
    by_cases hr : r' = r
    · subst hr
      have hrem := ((t.queued_iff_remaining c r' w).mp hq).resolve_left hnot
      exact Or.inr ⟨hrem, Or.inl (Finset.mem_erase.mpr ⟨hne, hh⟩), hhw⟩
    · exact Or.inl ⟨r', hr, hq, hh, hhw⟩
  · rw [applyRelease_not_held hc]
    exact ⟨ht, hac⟩

theorem sound_applyCommand (env : Env C τ) {t : LockTable C R τ}
    (ht : t.Sound ∧ Acyclic t.edge) (cmd : Command C R Rid) :
    (t.applyCommand env cmd).1.Sound ∧ Acyclic (t.applyCommand env cmd).1.edge := by
  cases cmd with
  | acquire c r ty _ => exact sound_applyAcquire env ht.1 ht.2 c r ty
  | release c r => exact sound_applyRelease ht.1 ht.2 c r
  | other => exact ht

omit [DecidableEq τ] in
theorem sound_init : (init : LockTable C R τ).Sound ∧ Acyclic (init : LockTable C R τ).edge := by
  have hno : ∀ w h, ¬ (init : LockTable C R τ).edge w h := DeadlockDetector.edge_init
  refine ⟨fun w h hwh => absurd hwh (hno w h), fun a ha => ?_⟩
  obtain ⟨b, hab, _⟩ := (TransGen.head'_iff).mp ha
  exact hno a b hab

theorem sound_run (cmds : List (Env C τ × Command C R Rid)) :
    ((init : LockTable C R τ).run cmds).Sound ∧ Acyclic ((init : LockTable C R τ).run cmds).edge :=
  run_preserves (I := fun t => t.Sound ∧ Acyclic t.edge)
    (fun env _ cmd ht _ => sound_applyCommand env ht cmd) sound_init (eachStep_true _ cmds)

/-- **Deadlock detection is sound.** After every sequence of commands every
edge of the graph is a real wait and the graph is acyclic, so a request that is
refused would have closed a cycle of real waits through its client. -/
theorem deadlock_detection_sound (cmds : List (Env C τ × Command C R Rid)) :
    (∀ w h, ((init : LockTable C R τ).run cmds).edge w h →
      ((init : LockTable C R τ).run cmds).WaitsFor w h) ∧
    Acyclic ((init : LockTable C R τ).run cmds).edge ∧
    ∀ (env : Env C τ) (c : C) (r : R) (ty : LockType),
      (applyAcquire env ((init : LockTable C R τ).run cmds) c r ty).2 = .deadlock →
        TransGen (((init : LockTable C R τ).run cmds).enqueue env.now c r ty).WaitsFor c c :=
  ⟨(sound_run cmds).1, (sound_run cmds).2,
    fun _ _ _ _ hst => cycle_of_deadlock (sound_run cmds).1 (sound_run cmds).2 hst⟩

end SoundRun

/-! ## Completeness, command by command -/

/-- The wait-for relation that queueing a request of `c` for `r` would give. -/
def WaitsForWith (t : LockTable C R τ) (c : C) (r : R) (w h : C) : Prop :=
  t.WaitsFor w h ∨ (w = c ∧ h ∈ t.holders r ∧ h ≠ c)

/-- A release of `r` by its holder `c` loses no real wait: nobody waits for `c`
elsewhere, those who are served wait for nobody elsewhere, and those who stay in
the queue wait for the new holders through another resource already. -/
structure ReleaseKeeps (t : LockTable C R τ) (c : C) (r : R) : Prop where
  releaser : ∀ w r', r' ≠ r → t.Queued w r' → c ∈ t.holders r' → w = c
  served : ∀ w ∈ Lock.clients (t.handedOver c r), ∀ r', r' ≠ r → t.Queued w r' →
    ∀ h ∈ t.holders r', h = w
  remaining : ∀ w, t.Remaining c r w → ∀ h ∈ Lock.clients (t.handedOver c r),
    h = w ∨ (t.WaitsFor w h ∧ h ≠ c ∧ w ∉ Lock.clients (t.handedOver c r))

/-- `ReleaseKeeps` by a look at the resources of the table. -/
theorem ReleaseKeeps.of_keys {t : LockTable C R τ} {c : C} {r : R}
    (hreleaser : ∀ r' ∈ t.locks.keys, r' ≠ r → ∀ w, t.Queued w r' → c ∈ t.holders r' → w = c)
    (hserved : ∀ r' ∈ t.locks.keys, r' ≠ r → ∀ w ∈ Lock.clients (t.handedOver c r),
      t.Queued w r' → ∀ h ∈ t.holders r', h = w)
    (hremaining : ∀ w, t.Remaining c r w → ∀ h ∈ Lock.clients (t.handedOver c r),
      h = w ∨ (t.WaitsFor w h ∧ h ≠ c ∧ w ∉ Lock.clients (t.handedOver c r))) :
    t.ReleaseKeeps c r where
  releaser w r' hr hq := hreleaser r' hq.mem_keys hr w hq
  served w hw r' hr hq := hserved r' hq.mem_keys hr w hw hq
  remaining := hremaining

/-- The command loses no real wait: a client that is let in waits for nobody
and whoever is queued behind it waits for it already, and a client that is
refused waits for nobody. -/
def KeepsEdges (t : LockTable C R τ) : Command C R Rid → Prop
  | .acquire c r ty _ =>
    if (t.lockOrNew r ty).canAcquire c ty then
      (∀ h, ¬ t.WaitsFor c h) ∧ ∀ w, t.Queued w r → w = c ∨ t.WaitsFor w c
    else TransGen (t.WaitsForWith c r) c c → ∀ h, ¬ t.WaitsFor c h
  | .release c r => c ∈ t.holders r → t.ReleaseKeeps c r
  | .other => True

theorem edge_eq_waitsFor {t : LockTable C R τ} (hs : t.Sound) (hc : t.Complete) :
    t.edge = t.WaitsFor := by
  funext w h
  exact propext ⟨hs w h, hc w h⟩

theorem complete_applyAcquire_iff (env : Env C τ) {t : LockTable C R τ} (hs : t.Sound)
    (hcomp : t.Complete) (hac : Acyclic t.edge) (c : C) (r : R) (ty : LockType)
    (requestId : Option Rid) :
    (applyAcquire env t c r ty).1.Complete ↔ t.KeepsEdges (.acquire c r ty requestId) := by
  have hedge : (t.waitingDetector c r).Edge = t.WaitsForWith c r := by
    funext w h
    refine propext ((edge_waitingDetector t c r w h).trans (or_congr_left ?_))
    rw [← edge_eq_waitsFor hs hcomp]
    rfl
  have hcycle : ((t.waitingDetector c r).detectCycle env.order c).isSome ↔
      TransGen (t.WaitsForWith c r) c c := by
    rw [← hedge]
    exact DeadlockDetector.detectCycle_isSome_iff_self env.order hac fun a b => t.edge_waiting c r
  rcases applyAcquire_cases env t c r ty with ⟨hcan, he⟩ | ⟨hcan, hcyc, he⟩ | ⟨hcan, hcyc, he⟩
  · simp only [KeepsEdges, hcan, ↓reduceIte, he]
    constructor
    · intro hcomp'
      refine ⟨fun h hch => ?_, fun w hq => ?_⟩
      · have := hcomp' c h ((waitsFor_granted _ _ _ _ _ _ _).mpr (Or.inl hch))
        exact ((DeadlockDetector.edge_removeWait _ _ _ _).mp this).2 rfl
      · by_cases hw : w = c
        · exact Or.inl hw
        · have hnew := hcomp' w c ((waitsFor_granted _ _ _ _ _ _ _).mpr
            (Or.inr ⟨rfl, hq, fun e => hw e.symm⟩))
          exact Or.inr (hs w c ((DeadlockDetector.edge_removeWait _ _ _ _).mp hnew).1)
    · rintro ⟨hnone, hqueue⟩ w h hwh
      refine (DeadlockDetector.edge_removeWait _ _ _ _).mpr ?_
      rcases (waitsFor_granted _ _ _ _ _ _ _).mp hwh with hold | ⟨rfl, hq, hne⟩
      · exact ⟨hcomp w h hold, fun e => hnone h (e ▸ hold)⟩
      · have hold := (hqueue w hq).resolve_left fun e => hne e.symm
        exact ⟨hcomp w h hold, fun e => hne e.symm⟩
  · simp only [KeepsEdges, hcan, Bool.false_eq_true, ↓reduceIte, he]
    constructor
    · intro hcomp' _ h hch
      have := hcomp' c h ((waitsFor_refused _ _ _ _ _ _).mpr hch)
      exact ((DeadlockDetector.edge_removeWait _ _ _ _).mp this).2 rfl
    · intro hkeep w h hwh
      have hnone := hkeep (hcycle.mp hcyc)
      have hold := (waitsFor_refused _ _ _ _ _ _).mp hwh
      refine (DeadlockDetector.edge_removeWait _ _ _ _).mpr ⟨?_, fun e => hnone h (e ▸ hold)⟩
      exact (edge_waitingDetector t c r w h).mpr (Or.inl (hcomp w h hold))
  · simp only [KeepsEdges, hcan, Bool.false_eq_true, ↓reduceIte, he]
    refine iff_of_true (fun w h hwh => ?_) fun hcl => absurd (hcycle.mpr hcl) (by simp [hcyc])
    refine (edge_waitingDetector t c r w h).mpr ?_
    rcases (waitsFor_queued _ _ _ _ _ _ _ _).mp hwh with hold | hnew
    · exact Or.inl (hcomp w h hold)
    · exact Or.inr hnew

theorem complete_applyRelease_iff [DecidableEq τ] {t : LockTable C R τ} (hs : t.Sound)
    (hcomp : t.Complete) {c : C} {r : R} (hc : c ∈ t.holders r) :
    (applyRelease t c r).1.Complete ↔ t.ReleaseKeeps c r := by
  constructor
  · intro hcomp'
    have hkeep : ∀ w h, (applyRelease t c r).1.WaitsFor w h →
        t.WaitsFor w h ∧ h ≠ c ∧ w ∉ Lock.clients (t.handedOver c r) := fun w h hwh => by
      obtain ⟨hold, hne, hnot⟩ := (edge_applyRelease hc w h).mp (hcomp' w h hwh)
      exact ⟨hs w h hold, hne, hnot⟩
    refine ⟨fun w r' hr hq hcr => ?_, fun w hw r' hr hq h hh => ?_, fun w hrem h hh => ?_⟩
    · by_contra hne
      exact (hkeep w c ((waitsFor_applyRelease hc w c).mpr
        (Or.inl ⟨r', hr, hq, hcr, fun e => hne e.symm⟩))).2.1 rfl
    · by_contra hne
      exact (hkeep w h ((waitsFor_applyRelease hc w h).mpr
        (Or.inl ⟨r', hr, hq, hh, hne⟩))).2.2 hw
    · by_cases hne : h = w
      · exact Or.inl hne
      · exact Or.inr (hkeep w h ((waitsFor_applyRelease hc w h).mpr
          (Or.inr ⟨hrem, Or.inr hh, hne⟩)))
  · intro hk w h hwh
    refine (edge_applyRelease hc w h).mpr ?_
    rcases (waitsFor_applyRelease hc w h).mp hwh with ⟨r', hr, hq, hh, hne⟩ | ⟨hrem, hh, hne⟩
    · refine ⟨hcomp w h ⟨r', hq, hh, hne⟩, ?_, fun hw => hne (hk.served w hw r' hr hq h hh)⟩
      rintro rfl
      exact hne (hk.releaser w r' hr hq hh).symm
    · rcases hh with hh | hh
      · -- other holders are left, so nobody is served
        have hnone : t.handedOver c r = [] := by
          unfold handedOver
          rw [if_neg (Finset.nonempty_iff_ne_empty.mp ⟨h, hh⟩)]
        obtain ⟨hhc, hhr⟩ := Finset.mem_erase.mp hh
        exact ⟨hcomp w h ⟨r, hrem.queued, hhr, hne⟩, hhc, by simp [hnone]⟩
      · obtain ⟨hold, hhc, hnot⟩ := (hk.remaining w hrem h hh).resolve_left hne
        exact ⟨hcomp w h hold, hhc, hnot⟩

variable [DecidableEq τ]

/-- **What each command does to completeness.** From a graph that shows exactly
the real waits, a command leaves no real wait out exactly when it keeps the
edges. -/
theorem complete_applyCommand_iff (env : Env C τ) {t : LockTable C R τ} (hs : t.Sound)
    (hcomp : t.Complete) (hac : Acyclic t.edge) (cmd : Command C R Rid) :
    (t.applyCommand env cmd).1.Complete ↔ t.KeepsEdges cmd := by
  cases cmd with
  | acquire c r ty requestId => exact complete_applyAcquire_iff env hs hcomp hac c r ty requestId
  | release c r =>
    by_cases hc : c ∈ t.holders r
    · exact (complete_applyRelease_iff hs hcomp hc).trans ⟨fun h _ => h, fun h => h hc⟩
    · simp only [applyCommand, applyRelease_not_held hc, KeepsEdges, hc, false_implies, iff_true]
      exact hcomp
  | other => exact iff_of_true hcomp trivial

/-- **No deadlock while no wait is lost.** If every command of a sequence keeps
the edges, the real wait-for relation has no cycle after it. -/
theorem no_deadlock_of_keepsEdges (cmds : List (Env C τ × Command C R Rid))
    (hkeep : (init : LockTable C R τ).EachStep KeepsEdges cmds) :
    Acyclic ((init : LockTable C R τ).run cmds).WaitsFor := by
  have hcomp : (init : LockTable C R τ).Complete := by
    rintro w h ⟨r, ⟨req, hreq, _⟩, _⟩
    simp at hreq
  have hinv := run_preserves (I := fun t => (t.Sound ∧ Acyclic t.edge) ∧ t.Complete)
    (P := KeepsEdges) (fun env t cmd ht hk => ⟨sound_applyCommand env ht.1 cmd,
      (complete_applyCommand_iff env ht.1.1 ht.2 ht.1.2 cmd).mpr hk⟩) ⟨sound_init, hcomp⟩ hkeep
  rw [← edge_eq_waitsFor hinv.1.1 hinv.2]
  exact hinv.1.2

/-- Client 1 queues behind 0 and is served when 0 releases; then 0 and 2 queue behind 1. -/
theorem no_deadlock_of_keepsEdges_queue : Acyclic ((init : LockTable (Fin 3) ℕ ℕ).run
    [acq 3 0 7 .exclusive, acq 3 1 7 .exclusive, acq 3 2 8 .shared, rel 3 0 7,
      acq 3 0 7 .exclusive, acq 3 2 7 .shared]).WaitsFor := by
  refine no_deadlock_of_keepsEdges _
    ⟨?granted, fun _ => ?queued, ?other, fun _ => ?served, fun _ => ?again, fun _ => ?third,
      trivial⟩
  case granted => exact ⟨by decide, by decide⟩
  case queued => decide
  case other => exact ⟨by decide, by decide⟩
  case served => exact .of_keys (by decide) (by decide) (by decide)
  case again => decide
  case third => decide

/-- Clients 0 and 1 queue behind 2 for resource 1, and 1 holds resource 3. When
2 releases, 0 is served, but no edge says that 1 now waits for 0; so 0 may queue
for resource 3, and the two wait for each other. -/
theorem deadlock_undetected : ¬ Acyclic ((init : LockTable (Fin 3) ℕ ℕ).run
    [acq 3 2 1 .exclusive, acq 3 1 3 .exclusive, acq 3 0 1 .exclusive, acq 3 1 1 .exclusive,
      rel 3 2 1, acq 3 0 3 .exclusive]).WaitsFor := by
  intro h
  exact h 0 (TransGen.head (b := 1) ⟨3, by decide, by decide, by decide⟩
    (TransGen.single ⟨1, by decide, by decide, by decide⟩))

end Pynchronize.LockTable
