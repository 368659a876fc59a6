import Pynchronize.Lock.TableStep

/-!
# One replica of the lock table

Every node applies the committed commands to a table of its own. The clock and
the order in which a node walks its sets are its own too; `apply_mapStamp` says
that neither has any influence on what the replica answers and whom it serves.
`replay` is the replica as a function of the commands alone.
-/

namespace Pynchronize

open Lib

variable {C R Rid τ τ' : Type*}

/-! ## Changing the stamps -/

def LockRequest.mapStamp (f : τ → τ') (req : LockRequest C R τ) : LockRequest C R τ' :=
  ⟨req.clientId, req.resourceId, req.lockType, f req.timestamp⟩

namespace Lock

def mapStamp (f : τ → τ') (lock : Lock C R τ) : Lock C R τ' :=
  ⟨lock.resourceId, lock.lockType, lock.holders, lock.waiting.map (LockRequest.mapStamp f)⟩

theorem grantablePrefix_mapStamp (f : τ → τ') (reqs : List (LockRequest C R τ)) :
    grantablePrefix (reqs.map (LockRequest.mapStamp f)) =
      (grantablePrefix reqs).map (LockRequest.mapStamp f) := by
  cases reqs with
  | nil => rfl
  | cons next rest =>
    have hrest : (rest.map (LockRequest.mapStamp f)).takeWhile (·.lockType = .shared) =
        (rest.takeWhile (·.lockType = .shared)).map (LockRequest.mapStamp f) := by
      rw [List.takeWhile_map]
      rfl
    simp only [List.map_cons, grantablePrefix, hrest]
    split
    · rename_i h
      rw [if_pos (show next.lockType = .exclusive from h)]
      rfl
    · rename_i h
      rw [if_neg (show ¬ next.lockType = .exclusive from h)]
      rfl

variable [DecidableEq C]

theorem handedOver_mapStamp (f : τ → τ') (lock : Lock C R τ) (c : C) :
    (lock.mapStamp f).handedOver c = (lock.handedOver c).map (LockRequest.mapStamp f) := by
  unfold handedOver
  split
  · rename_i h
    rw [if_pos (show lock.holders.erase c = ∅ from h)]
    exact grantablePrefix_mapStamp f _
  · rename_i h
    rw [if_neg (show ¬ lock.holders.erase c = ∅ from h)]
    rfl

theorem clients_mapStamp (f : τ → τ') (reqs : List (LockRequest C R τ)) :
    clients (reqs.map (LockRequest.mapStamp f)) = clients reqs := by
  unfold clients
  rw [List.map_map]
  rfl

theorem afterRelease_mapStamp (f : τ → τ') (lock : Lock C R τ) (c : C) :
    (lock.mapStamp f).afterRelease c = (lock.afterRelease c).mapStamp f := by
  unfold afterRelease
  rw [handedOver_mapStamp, clients_mapStamp]
  simp only [mapStamp, List.length_map, List.map_drop, List.head?_map, Option.map_map]
  rfl

end Lock

namespace LockTable

variable [DecidableEq C] [DecidableEq R]

def mapStamp (f : τ → τ') (t : LockTable C R τ) : LockTable C R τ' :=
  ⟨t.locks.map (Lock.mapStamp f), t.deadlockDetector⟩

omit [DecidableEq C] in
@[simp] theorem holders_mapStamp (f : τ → τ') (t : LockTable C R τ) (r : R) :
    (t.mapStamp f).holders r = t.holders r := by
  unfold holders mapStamp
  rw [Dict.get?_map, Option.map_map]
  rfl

omit [DecidableEq C] in
theorem waiting_mapStamp (f : τ → τ') (t : LockTable C R τ) (r : R) :
    (t.mapStamp f).waiting r = (t.waiting r).map (LockRequest.mapStamp f) := by
  unfold waiting mapStamp
  rw [Dict.get?_map]
  cases t.locks.get? r <;> rfl

omit [DecidableEq C] in
theorem lockOrNew_mapStamp (f : τ → τ') (t : LockTable C R τ) (r : R) (ty : LockType) :
    (t.mapStamp f).lockOrNew r ty = (t.lockOrNew r ty).mapStamp f := by
  unfold lockOrNew mapStamp
  rw [Dict.get?_map]
  cases t.locks.get? r <;> rfl

omit [DecidableEq C] in
theorem set_mapStamp (f : τ → τ') (t : LockTable C R τ) (r : R) (lock : Lock C R τ)
    (d : DeadlockDetector C) :
    (⟨(t.mapStamp f).locks.set r (lock.mapStamp f), d⟩ : LockTable C R τ') =
      mapStamp f ⟨t.locks.set r lock, d⟩ := by
  unfold mapStamp
  rw [Dict.map_set]

theorem waitingDetector_mapStamp (f : τ → τ') (t : LockTable C R τ) (c : C) (r : R) :
    (t.mapStamp f).waitingDetector c r = t.waitingDetector c r := by
  unfold waitingDetector
  rw [holders_mapStamp]
  rfl

/-- Whether there is a cycle does not depend on the order in which it is looked for. -/
theorem detectCycle_isSome_eq (order order' : SetOrder C) (d : DeadlockDetector C) (c : C) :
    (d.detectCycle order c).isSome = (d.detectCycle order' c).isSome := by
  rw [Bool.eq_iff_iff, DeadlockDetector.detectCycle_isSome_iff,
    DeadlockDetector.detectCycle_isSome_iff]

theorem applyAcquire_mapStamp {f : τ → τ'} {env : Env C τ} {env' : Env C τ'}
    (hnow : env'.now = f env.now) (t : LockTable C R τ) (c : C) (r : R) (ty : LockType) :
    applyAcquire env' (t.mapStamp f) c r ty =
      ((applyAcquire env t c r ty).1.mapStamp f, (applyAcquire env t c r ty).2) := by
  have hlock := lockOrNew_mapStamp f t r ty
  have hcanEq : ((t.mapStamp f).lockOrNew r ty).canAcquire c ty =
      (t.lockOrNew r ty).canAcquire c ty := by
    rw [hlock]
    rfl
  have hdet := waitingDetector_mapStamp f t c r
  rcases applyAcquire_cases env t c r ty with ⟨hcan, h⟩ | ⟨hcan, hcyc, h⟩ | ⟨hcan, hcyc, h⟩
  · have hgranted : (t.mapStamp f).grantedLock c r ty = (t.grantedLock c r ty).mapStamp f := by
      unfold grantedLock
      rw [hlock, holders_mapStamp]
      rfl
    rw [h, applyAcquire_granted env' (hcanEq.trans hcan), hgranted, set_mapStamp]
    rfl
  · rw [h, applyAcquire_refused (hcanEq.trans hcan)
      (by rw [hdet, detectCycle_isSome_eq _ env.order]; exact hcyc), hlock, set_mapStamp, hdet]
  · have hqueued : (t.mapStamp f).queuedLock c r ty env'.now =
        (t.queuedLock c r ty env.now).mapStamp f := by
      unfold queuedLock
      rw [hlock, waiting_mapStamp, hnow]
      simp only [Lock.mapStamp, List.map_append, List.map_cons, List.map_nil]
      rfl
    have hnone : ((t.mapStamp f).waitingDetector c r).detectCycle env'.order c = none := by
      have := detectCycle_isSome_eq env'.order env.order (t.waitingDetector c r) c
      rw [hcyc] at this
      rw [hdet]
      exact Option.isSome_eq_false_iff.mp this |> Option.isNone_iff_eq_none.mp
    rw [h, applyAcquire_queued (hcanEq.trans hcan) hnone, hqueued, set_mapStamp, hdet]

variable [DecidableEq τ] [DecidableEq τ']

theorem applyRelease_mapStamp (f : τ → τ') (t : LockTable C R τ) (c : C) (r : R) :
    applyRelease (t.mapStamp f) c r =
      ((applyRelease t c r).1.mapStamp f, (applyRelease t c r).2) := by
  by_cases hc : c ∈ t.holders r
  · obtain ⟨lock, hg, hl⟩ := exists_lock_of_mem_holders hc
    have hg' : (t.mapStamp f).locks.get? r = some (lock.mapStamp f) := by
      show (t.locks.map _).get? r = _
      rw [Dict.get?_map, hg]
      rfl
    have hreleased : releaseDetector t.deadlockDetector c ((lock.mapStamp f).handedOver c) =
        releaseDetector t.deadlockDetector c (lock.handedOver c) := by
      unfold releaseDetector
      rw [Lock.handedOver_mapStamp, List.foldl_map]
      rfl
    rw [applyRelease_held hg hl, applyRelease_held hg' (show c ∈ lock.holders from hl),
      Lock.afterRelease_mapStamp]
    show (LockTable.mk _ (releaseDetector t.deadlockDetector c _), _) = _
    rw [hreleased]
    refine Prod.ext ?_ rfl
    show LockTable.mk (if (lock.afterRelease c).holders = ∅ then _ else _) _ = _
    split
    · unfold mapStamp
      rw [Dict.map_erase]
    · exact set_mapStamp f t r _ _
  · rw [applyRelease_not_held hc, applyRelease_not_held (by rw [holders_mapStamp]; exact hc)]

theorem applyCommand_mapStamp {f : τ → τ'} {env : Env C τ} {env' : Env C τ'}
    (hnow : env'.now = f env.now) (t : LockTable C R τ) (cmd : Command C R Rid) :
    applyCommand env' (t.mapStamp f) cmd =
      ((applyCommand env t cmd).1.mapStamp f, (applyCommand env t cmd).2) := by
  cases cmd with
  | acquire c r ty requestId =>
    simp only [applyCommand]
    rw [applyAcquire_mapStamp hnow]
  | release c r =>
    simp only [applyCommand]
    rw [applyRelease_mapStamp]
  | other => rfl

/-! ## Whom a command serves -/

/-- The requests that `_process_waiting` makes holders in a command. -/
def served (t : LockTable C R τ) : Command C R Rid → List (LockRequest C R τ)
  | .release c r =>
    match t.locks.get? r with
    | some lock => if c ∈ lock.holders then lock.handedOver c else []
    | none => []
  | _ => []

omit [DecidableEq τ] [DecidableEq τ'] in
theorem served_mapStamp (f : τ → τ') (t : LockTable C R τ) (cmd : Command C R Rid) :
    (t.mapStamp f).served cmd = (t.served cmd).map (LockRequest.mapStamp f) := by
  cases cmd with
  | release c r =>
    simp only [served, mapStamp, Dict.get?_map]
    cases t.locks.get? r with
    | none => rfl
    | some lock =>
      simp only [Option.map_some]
      split
      · rename_i h
        rw [if_pos (show c ∈ lock.holders from h)]
        exact Lock.handedOver_mapStamp f lock c
      · rename_i h
        rw [if_neg (show c ∉ lock.holders from h)]
        rfl
  | _ => rfl

omit [DecidableEq τ] in
theorem mem_waiting_of_mem_served {t : LockTable C R τ} {cmd : Command C R Rid}
    {req : LockRequest C R τ} (h : req ∈ t.served cmd) : ∃ r, req ∈ t.waiting r := by
  cases cmd with
  | release c r =>
    simp only [served] at h
    split at h
    · rename_i lock hg
      refine ⟨r, ?_⟩
      rw [waiting_of_get? hg]
      split at h
      · unfold Lock.handedOver at h
        split at h
        · exact (Lock.grantablePrefix_isPrefix _).subset h
        · cases h
      · cases h
    · cases h
  | _ => cases h

/-- Only a command that is answered WAITING puts a request into a queue. -/
theorem mem_waiting_applyCommand {env : Env C τ} {t : LockTable C R τ} {cmd : Command C R Rid}
    {r : R} {req : LockRequest C R τ} (h : req ∈ (t.applyCommand env cmd).1.waiting r) :
    req ∈ t.waiting r ∨ (t.applyCommand env cmd).2 = some .waiting ∧ req.timestamp = env.now := by
  cases cmd with
  | acquire c r' ty requestId =>
    simp only [applyCommand] at h ⊢
    rcases applyAcquire_cases env t c r' ty with ⟨-, heq⟩ | ⟨-, -, heq⟩ | ⟨-, -, heq⟩
    · rw [heq, waiting_set] at h
      split at h
      · rename_i hr
        subst hr
        exact Or.inl ((waiting_lockOrNew t r' ty) ▸ h)
      · exact Or.inl h
    · rw [heq, waiting_set] at h
      split at h
      · rename_i hr
        subst hr
        exact Or.inl ((waiting_lockOrNew t r' ty) ▸ h)
      · exact Or.inl h
    · rw [heq, waiting_set] at h
      split at h
      · rename_i hr
        subst hr
        rcases List.mem_append.mp h with hold | hnew
        · exact Or.inl hold
        · rw [List.mem_singleton.mp hnew, heq]
          exact Or.inr ⟨rfl, rfl⟩
      · exact Or.inl h
  | release c r' =>
    simp only [applyCommand] at h ⊢
    by_cases hc : c ∈ t.holders r'
    · obtain ⟨lock, hg, hl⟩ := exists_lock_of_mem_holders hc
      rw [applyRelease_held hg hl] at h
      rcases eq_or_ne r' r with rfl | hne
      · rw [waiting_of_get? hg]
        refine Or.inl ?_
        split at h
        · unfold waiting at h
          rw [Dict.get?_erase_self] at h
          cases h
        · rw [waiting_set, if_pos rfl] at h
          exact List.mem_of_mem_drop h
      · refine Or.inl ?_
        split at h
        · unfold waiting at h ⊢
          rwa [Dict.get?_erase_ne _ hne.symm] at h
        · rwa [waiting_set, if_neg hne] at h
    · rw [applyRelease_not_held hc] at h
      exact Or.inl h
  | other => exact Or.inl h

end LockTable

noncomputable instance : Inhabited (SetOrder C) :=
  ⟨⟨fun _ s => s.toList, fun _ _ _ => Finset.mem_toList⟩⟩

/-! ## Replicas -/

/-- A command in the log, with the number of the call that proposed it. The code has no such
    number; it names the request in what is proved. -/
structure Proposal (C R Rid : Type*) where
  call : ℕ
  command : Command C R Rid
  deriving DecidableEq

/-- The table of a node with the record of what `_apply_command` answered for each call's command
    and of the requests that `_process_waiting` served. -/
structure Replica (C R τ : Type*) where
  table : LockTable C R τ
  answers : List (ℕ × LockStatus)
  served : List (LockRequest C R τ)

namespace Replica

def init : Replica C R τ := ⟨LockTable.init, [], []⟩

def mapStamp (f : τ → τ') (m : Replica C R τ) : Replica C R τ' :=
  ⟨m.table.mapStamp f, m.answers, m.served.map (LockRequest.mapStamp f)⟩

variable [DecidableEq C] [DecidableEq R] [DecidableEq τ] [DecidableEq τ']

/-- `_apply_command` on the command of a proposal. -/
def apply (env : Env C τ) (m : Replica C R τ) (p : Proposal C R Rid) :
    Replica C R τ × Option LockStatus :=
  let (table, status) := m.table.applyCommand env p.command
  ({ table := table
     answers := m.answers ++ status.toList.map fun st => (p.call, st)
     served := m.served ++ m.table.served p.command }, status)

theorem apply_mapStamp {f : τ → τ'} {env : Env C τ} {env' : Env C τ'} (hnow : env'.now = f env.now)
    (m : Replica C R τ) (p : Proposal C R Rid) :
    (m.mapStamp f).apply env' p = ((m.apply env p).1.mapStamp f, (m.apply env p).2) := by
  unfold apply mapStamp
  simp only [LockTable.applyCommand_mapStamp hnow, LockTable.served_mapStamp, List.map_append]

/-- The replica after some commands, as far as they determine it: requests are stamped with the
    call they come from. -/
def replay (order : SetOrder C) (ps : List (Proposal C R Rid)) : Replica C R ℕ :=
  ps.foldl (fun m p => (m.apply ⟨order, p.call⟩ p).1) init

theorem replay_concat (order : SetOrder C) (ps : List (Proposal C R Rid)) (p : Proposal C R Rid) :
    replay order (ps ++ [p]) = ((replay order ps).apply ⟨order, p.call⟩ p).1 := by
  unfold replay
  rw [List.foldl_append]
  rfl

theorem answers_replay_append (order : SetOrder C) (ps qs : List (Proposal C R Rid)) :
    (replay order ps).answers <+: (replay order (ps ++ qs)).answers := by
  induction qs using List.reverseRecOn with
  | nil => rw [List.append_nil]
  | append_singleton qs q ih =>
    rw [← List.append_assoc, replay_concat]
    exact ih.trans (List.prefix_append _ _)

/-- One command is answered at most once. -/
theorem calls_answers_replay (order : SetOrder C) (ps : List (Proposal C R Rid)) :
    ((replay order ps).answers.map Prod.fst).Sublist (ps.map Proposal.call) := by
  induction ps using List.reverseRecOn with
  | nil => exact List.Sublist.refl _
  | append_singleton ps p ih =>
    rw [replay_concat, List.map_append]
    simp only [apply, List.map_append]
    refine ih.append ?_
    cases ((replay order ps).table.applyCommand ⟨order, p.call⟩ p.command).2 with
    | none => exact List.nil_sublist _
    | some st => exact List.Sublist.refl _

/-- Every request in a queue, or served from one, was answered WAITING. -/
theorem answered_waiting_replay (order : SetOrder C) (ps : List (Proposal C R Rid)) :
    (∀ r, ∀ req ∈ (replay order ps).table.waiting r,
      (req.timestamp, LockStatus.waiting) ∈ (replay order ps).answers) ∧
    ∀ req ∈ (replay order ps).served,
      (req.timestamp, LockStatus.waiting) ∈ (replay order ps).answers := by
  induction ps using List.reverseRecOn with
  | nil =>
    constructor
    · intro r req h
      cases h
    · intro req h
      cases h
  | append_singleton ps p ih =>
    obtain ⟨hqueue, hserved⟩ := ih
    rw [replay_concat]
    simp only [apply]
    constructor
    · intro r req h
      rcases LockTable.mem_waiting_applyCommand h with hold | ⟨hst, hstamp⟩
      · exact List.mem_append_left _ (hqueue r req hold)
      · rw [hst, hstamp]
        exact List.mem_append_right _ (List.mem_singleton.mpr rfl)
    · intro req h
      rcases List.mem_append.mp h with hold | hnew
      · exact List.mem_append_left _ (hserved req hold)
      · obtain ⟨r, hr⟩ := LockTable.mem_waiting_of_mem_served hnew
        exact List.mem_append_left _ (hqueue r req hr)

end Replica

end Pynchronize
