import Pynchronize.Lock.Deadlocks
import Pynchronize.Lock.Replies

/-!
# Whom the queues serve, and when

Every queue is first in, first out: what was queued on a resource is what was
served and then what still waits (`waiting_run`, and `served_in_log_order` for
the nodes of a cluster). A request with `p` others before it is served by the
`p + 1`st hand-over of its lock at the latest (`served_of_handOvers`). Only
readers that join readers come before it without being queued
(`overtakes_reader`), and these may go on for ever (`writer_starves`).
-/

namespace Pynchronize

open Lib

variable {C R Rid τ : Type*} [DecidableEq C] [DecidableEq R]

namespace LockTable

/-! ## What a command does to one queue -/

/-- The request that a command adds to the queue of `r`. -/
def queuedOn (env : Env C τ) (t : LockTable C R τ) (r : R) :
    Command C R Rid → List (LockRequest C R τ)
  | .acquire c r' ty _ =>
    if r' = r ∧ (applyAcquire env t c r' ty).2 = .waiting then [⟨c, r', ty, env.now⟩] else []
  | _ => []

/-- The requests that a command takes off the queue of `r`. -/
def servedOn (t : LockTable C R τ) (r : R) : Command C R Rid → List (LockRequest C R τ)
  | .release c r' => if r' = r ∧ c ∈ t.holders r then t.handedOver c r else []
  | _ => []

variable [DecidableEq τ]

/-- One command takes requests off the head of a queue and adds one at its end. -/
theorem waiting_applyCommand (env : Env C τ) (t : LockTable C R τ) (r : R)
    (cmd : Command C R Rid) : t.waiting r ++ t.queuedOn env r cmd =
      t.servedOn r cmd ++ (t.applyCommand env cmd).1.waiting r := by
  cases cmd with
  | acquire c r' ty requestId =>
    simp only [queuedOn, servedOn, applyCommand, List.nil_append]
    rcases applyAcquire_cases env t c r' ty with ⟨-, heq⟩ | ⟨-, -, heq⟩ | ⟨-, -, heq⟩
    · rw [heq, if_neg (by simp), List.append_nil, waiting_set]
      split
      · rename_i hr
        rw [← hr]
        exact (waiting_lockOrNew t r' ty).symm
      · rfl
    · rw [heq, if_neg (by simp), List.append_nil, waiting_set]
      split
      · rename_i hr
        rw [← hr]
        exact (waiting_lockOrNew t r' ty).symm
      · rfl
    · rw [heq, waiting_set]
      rcases eq_or_ne r' r with rfl | hne
      · simp [queuedLock]
      · simp [hne]
  | release c r' =>
    simp only [queuedOn, servedOn, applyCommand, List.append_nil]
    by_cases hc : c ∈ t.holders r'
    · rw [waiting_applyRelease hc]
      rcases eq_or_ne r' r with rfl | hne
      · rw [if_pos ⟨rfl, hc⟩, if_pos rfl, handedOver_append_drop]
      · rw [if_neg (fun h => hne h.1), if_neg hne, List.nil_append]
    · have hnot : ¬ (r' = r ∧ c ∈ t.holders r) := by
        rintro ⟨rfl, hmem⟩
        exact hc hmem
      rw [applyRelease_not_held hc, if_neg hnot, List.nil_append]
  | other => exact List.append_nil _

/-- A served client holds the lock. -/
theorem mem_holders_of_servedOn {env : Env C τ} {t : LockTable C R τ} {r : R}
    {cmd : Command C R Rid} {req : LockRequest C R τ} (h : req ∈ t.servedOn r cmd) :
    req.clientId ∈ (t.applyCommand env cmd).1.holders r := by
  cases cmd with
  | release c r' =>
    simp only [servedOn] at h
    split at h
    · rename_i hc
      obtain ⟨rfl, hc⟩ := hc
      show req.clientId ∈ (applyRelease t c r').1.holders r'
      rw [holders_applyRelease hc, if_pos rfl]
      exact Finset.mem_union_right _ ((Lock.mem_clients _ _).mpr ⟨req, h, rfl⟩)
    · cases h
  | _ => cases h

/-! ## Runs of commands -/

/-- What a function of a table and a command gives at the commands of a list, one after another. -/
def gather {β : Type*} (f : Env C τ → LockTable C R τ → Command C R Rid → List β)
    (t : LockTable C R τ) : List (Env C τ × Command C R Rid) → List β
  | [] => []
  | (env, cmd) :: rest => f env t cmd ++ gather f (t.applyCommand env cmd).1 rest

/-- All requests that some commands put into the queue of `r`. -/
def allQueued (t : LockTable C R τ) (r : R) (cmds : List (Env C τ × Command C R Rid)) :
    List (LockRequest C R τ) :=
  t.gather (fun env t cmd => t.queuedOn env r cmd) cmds

/-- All requests that some commands take off the queue of `r`. -/
def allServed (t : LockTable C R τ) (r : R) (cmds : List (Env C τ × Command C R Rid)) :
    List (LockRequest C R τ) :=
  t.gather (fun _ t cmd => t.servedOn r cmd) cmds

/-- A queue loses nothing, repeats nothing and keeps the order: what stood in it and what came is
    what was served and then what still waits. -/
theorem waiting_run (t : LockTable C R τ) (r : R) (cmds : List (Env C τ × Command C R Rid)) :
    t.waiting r ++ t.allQueued r cmds = t.allServed r cmds ++ (t.run cmds).waiting r := by
  induction cmds generalizing t with
  | nil => exact List.append_nil _
  | cons x rest ih =>
    obtain ⟨env, cmd⟩ := x
    have hstep := waiting_applyCommand env t r cmd
    calc t.waiting r ++ (t.queuedOn env r cmd ++ (t.applyCommand env cmd).1.allQueued r rest)
        = t.servedOn r cmd ++ ((t.applyCommand env cmd).1.waiting r ++
            (t.applyCommand env cmd).1.allQueued r rest) := by
          rw [← List.append_assoc, hstep, List.append_assoc]
      _ = t.servedOn r cmd ++ (t.applyCommand env cmd).1.allServed r rest ++
            (t.run ((env, cmd) :: rest)).waiting r := by
          rw [ih, List.append_assoc]
          rfl

/-- Whether a command is a release of `r` by its last holder. -/
def handsOn (t : LockTable C R τ) (r : R) : Command C R Rid → Bool
  | .release c r' => r' = r ∧ t.holders r = {c}
  | _ => false

/-- How often a last holder releases `r` in the course of some commands. -/
def handOvers (t : LockTable C R τ) (r : R) : List (Env C τ × Command C R Rid) → ℕ
  | [] => 0
  | (env, cmd) :: rest =>
    (if t.handsOn r cmd then 1 else 0) + handOvers (t.applyCommand env cmd).1 r rest

omit [DecidableEq τ] in
theorem servedOn_of_handsOn {t : LockTable C R τ} {r : R} {cmd : Command C R Rid}
    (h : t.handsOn r cmd = true) : t.servedOn r cmd = Lock.grantablePrefix (t.waiting r) := by
  cases cmd with
  | release c r' =>
    obtain ⟨rfl, hc⟩ := of_decide_eq_true h
    have hmem : c ∈ t.holders r' := by simp [hc]
    have herase : (t.holders r').erase c = ∅ := by simp [hc]
    rw [servedOn, if_pos ⟨rfl, hmem⟩, handedOver, if_pos herase]
  | _ => cases h

/-- Every hand-over takes a request off the queue as long as there is one. -/
theorem min_handOvers_le (t : LockTable C R τ) (r : R)
    (cmds : List (Env C τ × Command C R Rid)) :
    min (t.handOvers r cmds) (t.waiting r).length ≤ (t.allServed r cmds).length := by
  induction cmds generalizing t with
  | nil => exact Nat.min_le_left _ _
  | cons x rest ih =>
    obtain ⟨env, cmd⟩ := x
    have hstep := congrArg List.length (waiting_applyCommand env t r cmd)
    have hrest := ih (t.applyCommand env cmd).1
    have hserved : (t.allServed r ((env, cmd) :: rest)).length = (t.servedOn r cmd).length +
        ((t.applyCommand env cmd).1.allServed r rest).length := List.length_append
    rw [List.length_append, List.length_append] at hstep
    rw [hserved, handOvers]
    by_cases hon : t.handsOn r cmd = true
    · rw [if_pos hon]
      rcases Nat.eq_zero_or_pos (t.waiting r).length with hzero | hpos
      · omega
      · have hne : t.servedOn r cmd ≠ [] := by
          rw [servedOn_of_handsOn hon]
          exact Lock.grantablePrefix_ne_nil (List.ne_nil_of_length_pos hpos)
        have hlen := List.length_pos_iff.mpr hne
        omega
    · rw [if_neg hon]
      omega

/-- What is served in a run is served by one of its commands. -/
theorem exists_of_mem_allServed {t : LockTable C R τ} {r : R}
    {cmds : List (Env C τ × Command C R Rid)} {req : LockRequest C R τ}
    (h : req ∈ t.allServed r cmds) : ∃ before env cmd after,
      cmds = before ++ (env, cmd) :: after ∧ req ∈ (t.run before).servedOn r cmd := by
  induction cmds generalizing t with
  | nil => cases h
  | cons x rest ih =>
    obtain ⟨env, cmd⟩ := x
    rcases List.mem_append.mp h with hnow | hlater
    · exact ⟨[], env, cmd, rest, rfl, hnow⟩
    · obtain ⟨before, env', cmd', after, rfl, hreq⟩ := ih hlater
      exact ⟨(env, cmd) :: before, env', cmd', after, rfl, hreq⟩

/-- A queued request with `p` others before it holds the lock after at most `p + 1` hand-overs,
    whatever else happens: the requests before it, and no others of the queue, are served first. -/
theorem served_of_handOvers {t : LockTable C R τ} {r : R}
    {cmds : List (Env C τ × Command C R Rid)} {p : ℕ} {req : LockRequest C R τ}
    (hp : (t.waiting r)[p]? = some req) (hcount : p < t.handOvers r cmds) :
    (t.allServed r cmds).take (p + 1) = (t.waiting r).take (p + 1) ∧
      ∃ before env cmd after, cmds = before ++ (env, cmd) :: after ∧
        req ∈ (t.run before).servedOn r cmd ∧
        req.clientId ∈ (((t.run before).applyCommand env cmd).1).holders r := by
  have hlt := (List.getElem?_eq_some_iff.mp hp).1
  have hmin := t.min_handOvers_le r cmds
  have hserved : p + 1 ≤ (t.allServed r cmds).length := by omega
  have hfifo := congrArg (List.take (p + 1)) (t.waiting_run r cmds)
  rw [List.take_append_of_le_length hlt, List.take_append_of_le_length hserved] at hfifo
  refine ⟨hfifo.symm, ?_⟩
  have hmem : req ∈ t.allServed r cmds := by
    have hreq : req ∈ (t.waiting r).take (p + 1) := by
      refine List.mem_of_getElem? (i := p) ?_
      rw [List.getElem?_take_of_lt (Nat.lt_succ_self p)]
      exact hp
    rw [hfifo] at hreq
    exact List.mem_of_mem_take hreq
  obtain ⟨before, env, cmd, after, heq, hreq⟩ := exists_of_mem_allServed hmem
  exact ⟨before, env, cmd, after, heq, hreq, mem_holders_of_servedOn hreq⟩

theorem served_of_handOvers_second :
    2 ∈ ((init : LockTable (Fin 3) ℕ ℕ).run [acq 3 0 7 .exclusive, acq 3 1 7 .exclusive,
        acq 3 2 7 .exclusive, rel 3 0 7, rel 3 1 7]).holders 7 ∧
      ∃ before env cmd after, [rel 3 0 7, rel 3 1 7] = before ++ (env, cmd) :: after ∧
        ⟨2, 7, .exclusive, 0⟩ ∈ (((init : LockTable (Fin 3) ℕ ℕ).run [acq 3 0 7 .exclusive,
          acq 3 1 7 .exclusive, acq 3 2 7 .exclusive]).run before).servedOn 7 cmd := by
  have hp : (((init : LockTable (Fin 3) ℕ ℕ).run [acq 3 0 7 .exclusive, acq 3 1 7 .exclusive,
      acq 3 2 7 .exclusive]).waiting 7)[1]? = some ⟨2, 7, .exclusive, 0⟩ := by
    decide
  have hcount : 1 < ((init : LockTable (Fin 3) ℕ ℕ).run [acq 3 0 7 .exclusive,
      acq 3 1 7 .exclusive, acq 3 2 7 .exclusive]).handOvers 7 [rel 3 0 7, rel 3 1 7] := by
    decide
  obtain ⟨-, before, env, cmd, after, heq, hserved, -⟩ := served_of_handOvers hp hcount
  exact ⟨by decide, before, env, cmd, after, heq, hserved⟩

/-! ## Overtaking -/

/-- An acquire that is granted although others are queued is a repeated one of a holder, or joins
    readers while a writer is first in the queue. -/
theorem overtakes_reader {env : Env C τ} {cmds : List (Env C τ × Command C R Rid)} {c : C} {r : R}
    {ty : LockType} {next : LockRequest C R τ} {rest : List (LockRequest C R τ)}
    (hw : ((init : LockTable C R τ).run cmds).waiting r = next :: rest)
    (hgranted : (applyAcquire env ((init : LockTable C R τ).run cmds) c r ty).2 = .acquired) :
    c ∈ ((init : LockTable C R τ).run cmds).holders r ∨
      ty = .shared ∧ next.lockType = .exclusive := by
  have hwf := wellFormed_run cmds
  rcases applyAcquire_cases env ((init : LockTable C R τ).run cmds) c r ty with
    ⟨hcan, -⟩ | ⟨-, -, heq⟩ | ⟨-, -, heq⟩
  · have hne : ((init : LockTable C R τ).run cmds).holders r ≠ ∅ := by
      intro he
      have hnone := hwf.queue_empty_of_unheld he
      unfold waiting at hw
      rw [hnone] at hw
      cases hw
    unfold Lock.canAcquire at hcan
    rw [holders_lockOrNew] at hcan
    rcases of_decide_eq_true hcan with he | ⟨hs, rfl⟩ | hmem
    · exact absurd he hne
    · refine Or.inr ⟨rfl, ?_⟩
      have hshared := (hwf r _ (get?_of_holders_ne_empty .shared hne)).shared hs
      rw [waiting_lockOrNew, hw] at hshared
      exact hshared next rfl
    · exact Or.inl hmem
  · rw [heq] at hgranted
    cases hgranted
  · rw [heq] at hgranted
    cases hgranted

theorem applyRelease_status (t : LockTable C R τ) (c : C) (r : R) :
    (applyRelease t c r).2 = .released := by
  by_cases hc : c ∈ t.holders r
  · obtain ⟨lock, hg, hl⟩ := exists_lock_of_mem_holders hc
    rw [applyRelease_held hg hl]
  · rw [applyRelease_not_held hc]

/-- The only holder of `r` is the reader `a`, and `queue` waits. -/
def ReadBy (t : LockTable C R τ) (r : R) (a : C) (queue : List (LockRequest C R τ)) : Prop :=
  ∃ lock, t.locks.get? r = some lock ∧ lock.lockType = .shared ∧ lock.holders = {a} ∧
    lock.waiting = queue

/-- Two readers take turns `n` times: each joins the other, who then releases. -/
def turns (env : Env C τ) (r : R) : ℕ → C → C → List (Env C τ × Command C R Rid)
  | 0, _, _ => []
  | n + 1, a, b =>
    (env, .acquire b r .shared none) :: (env, .release a r) :: turns env r n b a

/-- What some commands are answered. -/
def statuses (t : LockTable C R τ) (cmds : List (Env C τ × Command C R Rid)) : List LockStatus :=
  t.gather (fun env t cmd => (t.applyCommand env cmd).2.toList) cmds

theorem ReadBy.turn {t : LockTable C R τ} {r : R} {a b : C} {queue : List (LockRequest C R τ)}
    (h : t.ReadBy r a queue) (hab : a ≠ b) (env : Env C τ) :
    (applyAcquire env t b r .shared).2 = .acquired ∧
      (applyRelease (applyAcquire env t b r .shared).1 a r).1.ReadBy r b queue := by
  obtain ⟨lock, hg, hshared, hholders, hw⟩ := h
  have hlock : t.lockOrNew r .shared = lock := by
    unfold lockOrNew
    rw [hg]
    rfl
  have hcan : (t.lockOrNew r .shared).canAcquire b .shared = true := by
    simp [hlock, Lock.canAcquire, hshared]
  have hjoined : t.grantedLock b r .shared = { lock with holders := {b, a} } := by
    simp [grantedLock, hlock, holders_of_get? hg, hholders]
  rw [applyAcquire_granted env hcan]
  refine ⟨rfl, ?_⟩
  have hget : (t.locks.set r (t.grantedLock b r .shared)).get? r =
      some { lock with holders := {b, a} } := by
    rw [Dict.get?_set, if_pos rfl, hjoined]
  have herase : ({b, a} : Finset C).erase a = {b} := by
    rw [Finset.pair_comm, Finset.erase_insert (by simpa using hab)]
  have hleft : ({ lock with holders := {b, a} } : Lock C R τ).afterRelease a =
      { lock with holders := {b} } := by
    simp [Lock.afterRelease, Lock.handedOver, herase, Lock.clients]
  rw [applyRelease_held hget (by simp), hleft, if_neg (Finset.singleton_ne_empty b)]
  refine ⟨{ lock with holders := {b} }, ?_, hshared, rfl, hw⟩
  show (Dict.set _ r _).get? r = _
  rw [Dict.get?_set, if_pos rfl]

theorem ReadBy.turns {t : LockTable C R τ} {r : R} {a b : C} {queue : List (LockRequest C R τ)}
    (h : t.ReadBy r a queue) (hab : a ≠ b) (env : Env C τ) (n : ℕ) :
    (∃ c, (t.run (turns env r n a b : List (Env C τ × Command C R Rid))).ReadBy r c queue) ∧
      t.statuses (LockTable.turns env r n a b : List (Env C τ × Command C R Rid)) =
        (List.replicate n [LockStatus.acquired, LockStatus.released]).flatten := by
  induction n generalizing t a b with
  | zero => exact ⟨⟨a, h⟩, rfl⟩
  | succ n ih =>
    obtain ⟨hgranted, hread⟩ := h.turn hab env
    obtain ⟨hrun, hst⟩ := ih hread hab.symm
    refine ⟨hrun, ?_⟩
    show ((applyAcquire env t b r .shared).2 ::
      (applyRelease (applyAcquire env t b r .shared).1 a r).2 :: statuses _ _) = _
    rw [hgranted, applyRelease_status, List.replicate_succ, List.flatten_cons]
    exact congrArg (fun sts => LockStatus.acquired :: LockStatus.released :: sts) hst

omit [DecidableEq τ] in
/-- A reader holds `r`, and a writer is queued behind it. -/
theorem readBy_of_first (env : Env C τ) (r : R) {a w : C} (haw : a ≠ w) :
    (applyAcquire env (init : LockTable C R τ) a r .shared).2 = .acquired ∧
      (applyAcquire env (applyAcquire env (init : LockTable C R τ) a r .shared).1 w r
        .exclusive).2 = .waiting ∧
      (applyAcquire env (applyAcquire env (init : LockTable C R τ) a r .shared).1 w r
        .exclusive).1.ReadBy r a [⟨w, r, .exclusive, env.now⟩] := by
  have hcan : ((init : LockTable C R τ).lockOrNew r .shared).canAcquire a .shared = true := by
    simp [Lock.canAcquire]
  have hlock : (init : LockTable C R τ).grantedLock a r .shared = ⟨r, .shared, {a}, []⟩ := by
    unfold grantedLock
    rw [holders_init]
    rfl
  rw [applyAcquire_granted env hcan, hlock]
  refine ⟨rfl, ?_⟩
  generalize htable : (⟨(init : LockTable C R τ).locks.set r ⟨r, .shared, {a}, []⟩,
    (init : LockTable C R τ).deadlockDetector.removeWait a⟩ : LockTable C R τ) = t
  have hget : t.locks.get? r = some ⟨r, .shared, {a}, []⟩ := by
    rw [← htable]
    exact Dict.get?_set_self _ _ _
  have hnew : t.lockOrNew r .exclusive = ⟨r, .shared, {a}, []⟩ := by
    unfold lockOrNew
    rw [hget]
    rfl
  have hcan : (t.lockOrNew r .exclusive).canAcquire w .exclusive = false := by
    rw [hnew]
    simpa [Lock.canAcquire] using haw.symm
  -- the only edge goes from the writer to the reader
  have hedge : ∀ x y, (t.waitingDetector w r).Edge x y → x = w ∧ y = a := by
    intro x y hxy
    rcases (edge_waitingDetector t w r x y).mp hxy with hold | ⟨rfl, hy, -⟩
    · rw [← htable] at hold
      exact absurd ((DeadlockDetector.edge_removeWait _ _ _ _).mp hold).1
        (DeadlockDetector.edge_init _ _)
    · rw [holders_of_get? hget] at hy
      exact ⟨rfl, Finset.mem_singleton.mp hy⟩
  have hnone : (t.waitingDetector w r).detectCycle env.order w = none := by
    rw [← Option.not_isSome_iff_eq_none, DeadlockDetector.detectCycle_isSome_iff]
    rintro ⟨x, -, hcycle⟩
    obtain ⟨y, hfirst, -⟩ := Relation.TransGen.head'_iff.mp hcycle
    obtain ⟨z, -, hlast⟩ := Relation.TransGen.tail'_iff.mp hcycle
    exact haw ((hedge z x hlast).2.symm.trans (hedge x y hfirst).1)
  rw [applyAcquire_queued hcan hnone]
  refine ⟨rfl, t.queuedLock w r .exclusive env.now, ?_, ?_, ?_, ?_⟩
  · exact Dict.get?_set_self _ _ _
  · simp [queuedLock, hnew]
  · simp [queuedLock, hnew]
  · simp [queuedLock, waiting_of_get? hget]

/-- A reader is granted `r`, a writer is queued behind it, and then two readers take turns. -/
def aroundWriter (env : Env C τ) (r : R) (a b w : C) (n : ℕ) : List (Env C τ × Command C R Rid) :=
  (env, .acquire a r .shared none) :: (env, .acquire w r .exclusive none) :: turns env r n a b

/-- However many readers have been granted `r` after a writer was queued on it, and although all
    but one of them have released it, the writer still waits. -/
theorem writer_starves (env : Env C τ) (r : R) {a b w : C} (hab : a ≠ b) (haw : a ≠ w) (n : ℕ) :
    (init : LockTable C R τ).statuses (aroundWriter env r a b w n : List (Env C τ ×
        Command C R Rid)) = .acquired :: .waiting ::
          (List.replicate n [LockStatus.acquired, LockStatus.released]).flatten ∧
      (∃ c, ((init : LockTable C R τ).run (aroundWriter env r a b w n : List (Env C τ ×
        Command C R Rid))).holders r = {c}) ∧
      ((init : LockTable C R τ).run (aroundWriter env r a b w n : List (Env C τ ×
        Command C R Rid))).waiting r = [⟨w, r, .exclusive, env.now⟩] := by
  obtain ⟨hacquired, hwaiting, hread⟩ := readBy_of_first env r haw
  obtain ⟨⟨c, lock, hg, -, hc, hw⟩, hst⟩ := hread.turns hab env n
  refine ⟨?_, ⟨c, ?_⟩, ?_⟩
  · show (applyAcquire env (init : LockTable C R τ) a r .shared).2 :: _ :: statuses _ _ = _
    rw [hacquired]
    show _ :: (applyAcquire env (applyAcquire env (init : LockTable C R τ) a r .shared).1 w r
      .exclusive).2 :: statuses _ _ = _
    rw [hwaiting]
    exact congrArg (fun sts => LockStatus.acquired :: LockStatus.waiting :: sts) hst
  · exact (holders_of_get? hg).trans hc
  · exact (waiting_of_get? hg).trans hw

theorem writer_starves_twice :
    ((init : LockTable (Fin 3) ℕ ℕ).run (aroundWriter (finEnv 3) 7 0 1 2 2 : List (Env (Fin 3) ℕ ×
      Command (Fin 3) ℕ ℕ))).waiting 7 = [⟨2, 7, .exclusive, 0⟩] :=
  (writer_starves (finEnv 3) 7 (by decide) (by decide) 2).2.2

end LockTable

/-! ## The nodes of a cluster -/

namespace Replica

variable [DecidableEq τ]

/-- The call, the client and the type of an acquire of `r` that was answered WAITING. -/
def askedFor (r : R) (answers : List (ℕ × LockStatus)) (p : Proposal C R Rid) :
    Option (ℕ × C × LockType) :=
  match p.command with
  | .acquire c r' ty _ =>
    if r' = r ∧ (p.call, LockStatus.waiting) ∈ answers then some (p.call, c, ty) else none
  | _ => none

/-- What is known of a request by its call. -/
def asRequested (req : LockRequest C R ℕ) : ℕ × C × LockType :=
  (req.timestamp, req.clientId, req.lockType)

omit [DecidableEq τ] in
/-- What is served from the queue of a resource are the requests of that resource. -/
theorem filter_served {t : LockTable C R τ}
    (hown : ∀ r, ∀ req ∈ t.waiting r, req.resourceId = r) (r : R) (cmd : Command C R Rid) :
    (t.served cmd).filter (·.resourceId = r) = t.servedOn r cmd := by
  cases cmd with
  | release c r' =>
    have hserved : t.served (.release c r' : Command C R Rid) = t.servedOn r' (.release c r' :
        Command C R Rid) := by
      cases hg : t.locks.get? r' with
      | none => simp [LockTable.served, LockTable.servedOn, LockTable.holders, hg]
      | some lock =>
        simp [LockTable.served, LockTable.servedOn, LockTable.handedOver, Lock.handedOver,
          LockTable.holders_of_get? hg, LockTable.waiting_of_get? hg, hg]
    have hmem : ∀ req ∈ t.served (.release c r' : Command C R Rid), req.resourceId = r' := by
      intro req hreq
      rw [hserved, LockTable.servedOn] at hreq
      split at hreq
      · refine hown r' req ?_
        rw [← LockTable.handedOver_append_drop t c r']
        exact List.mem_append_left _ hreq
      · cases hreq
    rcases eq_or_ne r' r with rfl | hne
    · rw [← hserved]
      exact List.filter_eq_self.mpr fun req hreq => decide_eq_true (hmem req hreq)
    · rw [LockTable.servedOn, if_neg (fun h => hne h.1)]
      refine List.filter_eq_nil_iff.mpr fun req hreq => ?_
      rw [hmem req hreq]
      exact fun h => hne (of_decide_eq_true h)
  | _ => rfl

omit [DecidableEq τ] in
theorem own_replay (order : SetOrder C) (ps : List (Proposal C R Rid)) (r : R) :
    ∀ req ∈ (replay order ps).table.waiting r, req.resourceId = r := by
  induction ps using List.reverseRecOn with
  | nil =>
    intro req h
    cases h
  | append_singleton ps q ih =>
    rw [replay_concat]
    intro req hreq
    have hstep := LockTable.waiting_applyCommand ⟨order, q.call⟩ (replay order ps).table r q.command
    have hmem : req ∈ (replay order ps).table.waiting r ++
        (replay order ps).table.queuedOn ⟨order, q.call⟩ r q.command := by
      rw [hstep]
      exact List.mem_append_right _ hreq
    rcases List.mem_append.mp hmem with hold | hnew
    · exact ih req hold
    · unfold LockTable.queuedOn at hnew
      split at hnew
      · split at hnew
        · rename_i h
          rw [List.mem_singleton.mp hnew]
          exact h.1
        · cases hnew
      · cases hnew

omit [DecidableEq τ] in
/-- In a list of commands of different calls, the acquires of a resource that were answered WAITING
    are in their order those served and then those still queued. -/
theorem askedFor_replay (order : SetOrder C) {ps : List (Proposal C R Rid)}
    (hps : (ps.map Proposal.call).Nodup) (r : R) :
    ps.filterMap (askedFor r (replay order ps).answers) =
      ((replay order ps).served.filter (·.resourceId = r) ++
        (replay order ps).table.waiting r).map asRequested := by
  induction ps using List.reverseRecOn with
  | nil => rfl
  | append_singleton ps q ih =>
    rw [List.map_append, List.nodup_append] at hps
    obtain ⟨hps, -, hnew⟩ := hps
    have hanswers : (replay order (ps ++ [q])).answers = (replay order ps).answers ++
        (((replay order ps).table.applyCommand ⟨order, q.call⟩ q.command).2).toList.map
          fun st => (q.call, st) := by
      rw [replay_concat]
      rfl
    -- the answers to earlier calls stay what they were
    have hold : ∀ p ∈ ps, askedFor r (replay order (ps ++ [q])).answers p =
        askedFor r (replay order ps).answers p := by
      intro p hp
      have hne : p.call ≠ q.call :=
        hnew p.call (List.mem_map_of_mem hp) q.call (List.mem_singleton.mpr rfl)
      have hiff : (p.call, LockStatus.waiting) ∈ (replay order (ps ++ [q])).answers ↔
          (p.call, LockStatus.waiting) ∈ (replay order ps).answers := by
        rw [hanswers, List.mem_append]
        refine or_iff_left fun h => ?_
        obtain ⟨st, -, heq⟩ := List.mem_map.mp h
        exact hne (congrArg Prod.fst heq).symm
      unfold askedFor
      simp only [hiff]
    have hfirst : (q.call, LockStatus.waiting) ∉ (replay order ps).answers := by
      intro h
      have hcall := (calls_answers_replay order ps).subset (List.mem_map_of_mem (f := Prod.fst) h)
      exact hnew q.call hcall q.call (List.mem_singleton.mpr rfl) rfl
    have hlast : [q].filterMap (askedFor r (replay order (ps ++ [q])).answers) =
        ((replay order ps).table.queuedOn ⟨order, q.call⟩ r q.command).map asRequested := by
      rw [hanswers]
      obtain ⟨k, cmd⟩ := q
      cases cmd with
      | acquire c r' ty requestId =>
        have hiff : (k, LockStatus.waiting) ∈ (replay order ps).answers ++
              (((replay order ps).table.applyCommand ⟨order, k⟩
                (.acquire c r' ty requestId)).2).toList.map (fun st => (k, st)) ↔
            (LockTable.applyAcquire ⟨order, k⟩ (replay order ps).table c r' ty).2 = .waiting := by
          rw [List.mem_append, or_iff_right hfirst]
          simp [LockTable.applyCommand, eq_comm]
        simp only [List.filterMap_cons, List.filterMap_nil, askedFor, LockTable.queuedOn, hiff]
        split
        · rename_i hnone
          split at hnone
          · cases hnone
          · rename_i h
            rw [if_neg h]
            rfl
        · rename_i hsome
          split at hsome
          · rename_i h
            rw [if_pos h, ← Option.some.inj hsome]
            rfl
          · cases hsome
      | _ => rfl
    rw [List.filterMap_append, List.filterMap_congr hold, ih hps, hlast, ← List.map_append,
      List.append_assoc, LockTable.waiting_applyCommand, ← filter_served (own_replay order ps),
      ← List.append_assoc, ← List.filter_append, replay_concat]
    rfl

end Replica

namespace LockCluster

/-- On every node and in every run the requests of a resource that were answered WAITING are, in
    the order of the log, those served from its queue and then those still in it. -/
theorem served_in_log_order {N : Type*} [DecidableEq N] [DecidableEq Rid]
    {cfg : LockConfig N C R Rid} {start : N → ℚ} {xs : List (Env C ℚ × LockAction N C R Rid)}
    {s : LockCluster N C R Rid} (hs : (boot start).run cfg xs = some s) (i : N) (r : R) :
    ((s.raft.nodes i).applied.map Prod.snd).filterMap
        (Replica.askedFor r (s.managers i).replica.answers) =
      ((s.managers i).replica.served.filter (·.resourceId = r) ++
        (s.managers i).replica.table.waiting r).map fun req =>
          (req.timestamp.call, req.clientId, req.lockType) := by
  have h : Tracked cfg s := (tracked_boot cfg start).run hs
  have hreplica := h.replicas i default
  have hasked := Replica.askedFor_replay default (h.nodup_applied i) r
  rw [← h.answers_eq i default, ← hreplica] at hasked
  rw [hasked]
  show ((((s.managers i).replica.served.map _).filter _) ++
    ((s.managers i).replica.table.mapStamp _).waiting r).map _ = _
  rw [LockTable.waiting_mapStamp, List.filter_map, ← List.map_append, List.map_map]
  rfl

theorem served_in_log_order_queuedBehind :
    ∃ s : LockCluster (Fin 1) (Fin 2) (Fin 2) RequestId,
      (boot fun _ => 0).run oneNode (queuedBehind ++ during 4 [.releaseLock 0 0 0]) = some s ∧
      ((s.raft.nodes 0).applied.map Prod.snd).filterMap
        (Replica.askedFor 0 (s.managers 0).replica.answers) =
      ((s.managers 0).replica.served.filter (·.resourceId = 0) ++
        (s.managers 0).replica.table.waiting 0).map fun req =>
          (req.timestamp.call, req.clientId, req.lockType) := by
  have hrun : ((boot fun _ => 0).run oneNode
      (queuedBehind ++ during 4 [.releaseLock 0 0 0])).isSome = true := by
    decide +kernel
  obtain ⟨s, hs⟩ := Option.isSome_iff_exists.mp hrun
  exact ⟨s, hs, served_in_log_order hs 0 0⟩

end LockCluster

end Pynchronize
