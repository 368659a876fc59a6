import Mathlib.Data.Rat.Defs
import Mathlib.Data.Fintype.EquivFin
import Mathlib.Data.Set.Finite.Basic
import Pynchronize.Lock.Determinism
import Pynchronize.Lock.Invariant

/-!
# Commands as the HTTP handlers propose them

`_acquire_lock` and `_release_lock` (`src/main.py`) take `client_id` and
`resource_id` out of the JSON body as they are; the only test is that they are
truthy. `_apply_command` uses them as dict keys and set members, which Python
refuses for lists and dicts. Here the committed commands carry JSON values, and
applying one may raise. `completes_iff` says when it does. The interpreter's
limit on the depth of a recursion is left out.
-/

namespace Pynchronize

open Lib

/-! ## JSON values as Python has them -/

/-- What `json.loads` gives. A float is its exact value; every NaN read from a text is an object
    of its own. In an object the last of several equal names counts. -/
inductive Json where
  | null
  | bool (b : Bool)
  | int (n : ℤ)
  | float (x : ℚ)
  | infinity (negative : Bool)
  | nan (identity : ℕ)
  | string (s : String)
  | array (items : List Json)
  | object (items : List (String × Json))

/-- Hashable values up to `==`: bools, ints and floats that are equal numbers are one key, and a
    NaN is found by its identity only. -/
inductive Key where
  | null
  | number (x : ℚ)
  | infinity (negative : Bool)
  | nan (identity : ℕ)
  | string (s : String)
  deriving DecidableEq

/-- `TypeError: unhashable type: ...`. -/
inductive Unhashable where
  | list
  | dict
  deriving DecidableEq

namespace Json

def truthy : Json → Bool
  | .null => false
  | .bool b => b
  | .int n => n ≠ 0
  | .float x => x ≠ 0
  | .infinity _ => true
  | .nan _ => true
  | .string s => s ≠ ""
  | .array items => !items.isEmpty
  | .object items => !items.isEmpty

/-- What `hash` and `==` see of a value. -/
def key : Json → Except Unhashable Key
  | .null => .ok .null
  | .bool b => .ok (.number (if b then 1 else 0))
  | .int n => .ok (.number n)
  | .float x => .ok (.number x)
  | .infinity negative => .ok (.infinity negative)
  | .nan identity => .ok (.nan identity)
  | .string s => .ok (.string s)
  | .array _ => .error .list
  | .object _ => .error .dict

def Hashable : Json → Prop
  | .array _ => False
  | .object _ => False
  | _ => True

theorem hashable_iff (v : Json) : v.Hashable ↔ ∃ k, v.key = .ok k := by
  cases v <;> simp [Hashable, key]

/-- `data.get(name, default)`. -/
def get (items : List (String × Json)) (name : String) (default : Json) : Json :=
  ((items.reverse.find? (·.1 = name)).map Prod.snd).getD default

/-- `lock_type_str == "shared"`. -/
def isShared : Json → Bool
  | .string s => s = "shared"
  | _ => false

end Json

/-! ## The handlers -/

section Handlers

variable {Rid : Type*}

inductive Endpoint where
  | acquire
  | release

/-- `_acquire_lock` with the command that `acquire_lock` builds; `none` is an error answer. -/
def acquireCommand (requestId : Json → Json → ℚ → Rid) (now : ℚ) :
    Json → Option (Command Json Json Rid)
  | .object data =>
    let clientId := Json.get data "client_id" .null
    let resourceId := Json.get data "resource_id" .null
    let lockTypeStr := Json.get data "lock_type" (.string "exclusive")
    if !clientId.truthy || !resourceId.truthy then none
    else
      let lockType := if lockTypeStr.isShared then .shared else .exclusive
      some (.acquire clientId resourceId lockType (some (requestId clientId resourceId now)))
  | _ => none

/-- `_release_lock` with the command that `release_lock` builds. -/
def releaseCommand : Json → Option (Command Json Json Rid)
  | .object data =>
    let clientId := Json.get data "client_id" .null
    let resourceId := Json.get data "resource_id" .null
    if !clientId.truthy || !resourceId.truthy then none
    else some (.release clientId resourceId)
  | _ => none

/-- The command of a request body, if the handler accepts it. -/
def accept (requestId : Json → Json → ℚ → Rid) (now : ℚ) :
    Endpoint → Json → Option (Command Json Json Rid)
  | .acquire, body => acquireCommand requestId now body
  | .release, body => releaseCommand body

/-- Some request body is turned into this command. -/
def Accepted (requestId : Json → Json → ℚ → Rid) (cmd : Command Json Json Rid) : Prop :=
  ∃ now endpoint body, accept requestId now endpoint body = some cmd

/-- `client_id` and `resource_id` of a command. -/
def Command.ids {C R : Type*} : Command C R Rid → Option (C × R)
  | .acquire clientId resourceId _ _ => some (clientId, resourceId)
  | .release clientId resourceId => some (clientId, resourceId)
  | .other => none

/-- Neither id is a list or a dict. -/
def Command.Hashable (cmd : Command Json Json Rid) : Prop :=
  ∀ ids ∈ cmd.ids, ids.1.Hashable ∧ ids.2.Hashable

/-- A handler lets every pair of truthy values through. -/
theorem accepted_acquire (requestId : Json → Json → ℚ → Rid) (now : ℚ) {clientId resourceId : Json}
    (hc : clientId.truthy = true) (hr : resourceId.truthy = true) :
    Accepted requestId (.acquire clientId resourceId .exclusive
      (some (requestId clientId resourceId now))) := by
  refine ⟨now, .acquire, .object [("client_id", clientId), ("resource_id", resourceId)], ?_⟩
  simp [accept, acquireCommand, Json.get, hc, hr, Json.isShared]

theorem Accepted.truthy {requestId : Json → Json → ℚ → Rid} {cmd : Command Json Json Rid}
    (h : Accepted requestId cmd) :
    ∃ clientId resourceId, cmd.ids = some (clientId, resourceId) ∧
      clientId.truthy = true ∧ resourceId.truthy = true := by
  obtain ⟨now, endpoint, body, hbody⟩ := h
  cases endpoint with
  | acquire =>
    cases body with
    | object data =>
      simp only [accept, acquireCommand] at hbody
      split at hbody
      · cases hbody
      · rename_i htruthy
        simp only [Bool.or_eq_true, Bool.not_eq_true', not_or, Bool.not_eq_false] at htruthy
        cases hbody
        exact ⟨_, _, rfl, htruthy⟩
    | _ => cases hbody
  | release =>
    cases body with
    | object data =>
      simp only [accept, releaseCommand] at hbody
      split at hbody
      · cases hbody
      · rename_i htruthy
        simp only [Bool.or_eq_true, Bool.not_eq_true', not_or, Bool.not_eq_false] at htruthy
        cases hbody
        exact ⟨_, _, rfl, htruthy⟩
    | _ => cases hbody

end Handlers

/-! ## Applying a command with JSON ids -/

/-- The LockManager of a node as the bodies make it. -/
abbrev JsonManager (Rid τ : Type*) := LocalManager Key Key Rid τ

namespace JsonManager

variable {Rid τ : Type*} [DecidableEq Rid]

/-- `_apply_acquire`. The first use of `resource_id` hashes it. Before `client_id` is hashed the
    lock has been created, and has taken the type asked for if it has no holders. -/
def applyAcquire (env : Env Key τ) (m : JsonManager Rid τ) (clientId resourceId : Json)
    (lockType : LockType) (requestId : Option Rid) :
    JsonManager Rid τ × Except Unhashable LockStatus :=
  match resourceId.key with
  | .error e => (m, .error e)
  | .ok r =>
    match clientId.key with
    | .error e =>
      let lock := m.table.lockOrNew r lockType
      let lock := if lock.holders = ∅ then { lock with lockType := lockType } else lock
      ({ m with table := { m.table with locks := m.table.locks.set r lock } }, .error e)
    | .ok c =>
      let (m, status) := LocalManager.applyAcquire env m c r lockType requestId
      (m, .ok status)

variable [DecidableEq τ]

/-- `_apply_release`. A lock that does not exist is released without a look at `client_id`. -/
def applyRelease (m : JsonManager Rid τ) (clientId resourceId : Json) :
    JsonManager Rid τ × Except Unhashable LockStatus :=
  match resourceId.key with
  | .error e => (m, .error e)
  | .ok r =>
    if m.table.locks.contains r then
      match clientId.key with
      | .error e => (m, .error e)
      | .ok c =>
        let (m, status) := LocalManager.applyRelease m c r
        (m, .ok status)
    else (m, .ok .released)

def applyCommand (env : Env Key τ) (m : JsonManager Rid τ) :
    Command Json Json Rid → JsonManager Rid τ × Except Unhashable (Option LockStatus)
  | .acquire clientId resourceId lockType requestId =>
    let (m, status) := applyAcquire env m clientId resourceId lockType requestId
    (m, status.map some)
  | .release clientId resourceId =>
    let (m, status) := applyRelease m clientId resourceId
    (m, status.map some)
  | .other => (m, .ok none)

/-- The lock table and the futures of a node after any commands of any bodies, those that raised
    included; between two commands its callers register and drop futures. -/
inductive Reachable (requestId : Json → Json → ℚ → Rid) : JsonManager Rid τ → Prop
  | init : Reachable requestId LocalManager.init
  | apply {m : JsonManager Rid τ} {cmd : Command Json Json Rid} (env : Env Key τ)
      (pendingRequests : PendingRequests Rid) (hm : Reachable requestId m)
      (hcmd : Accepted requestId cmd) :
      Reachable requestId
        (applyCommand env { m with pendingRequests := pendingRequests } cmd).1

/-- The loop of `_apply_committed`; `last_applied` is moved before the command is applied. -/
def applyLoop (env : ℕ → Env Key τ) (log : List (Command Json Json Rid)) :
    ℕ → JsonManager Rid τ → ℕ → JsonManager Rid τ × ℕ × Except Unhashable Unit
  | 0, m, lastApplied => (m, lastApplied, .ok ())
  | k + 1, m, lastApplied =>
    match log[lastApplied]? with
    | some cmd =>
      match applyCommand (env (lastApplied + 1)) m cmd with
      | (m, .ok _) => applyLoop env log k m (lastApplied + 1)
      | (m, .error e) => (m, lastApplied + 1, .error e)
    | none => applyLoop env log k m (lastApplied + 1)

def applyCommitted (env : ℕ → Env Key τ) (log : List (Command Json Json Rid)) (commitIndex : ℕ)
    (m : JsonManager Rid τ) (lastApplied : ℕ) : JsonManager Rid τ × ℕ × Except Unhashable Unit :=
  applyLoop env log (commitIndex - lastApplied) m lastApplied

/-! ## Holders stay -/

end JsonManager

namespace LockTable

variable {C R τ : Type*} [DecidableEq C] [DecidableEq R]

theorem mem_holders_applyAcquire (env : Env C τ) {t : LockTable C R τ} {f : C} {r : R}
    (h : f ∈ t.holders r) (c : C) (r' : R) (ty : LockType) :
    f ∈ (applyAcquire env t c r' ty).1.holders r := by
  rcases applyAcquire_cases env t c r' ty with ⟨-, heq⟩ | ⟨-, -, heq⟩ | ⟨-, -, heq⟩
  · rw [heq, holders_set]
    split
    · rename_i hr
      subst hr
      exact Finset.mem_insert_of_mem h
    · exact h
  · rw [heq, holders_set, holders_lockOrNew]
    split
    · rename_i hr
      exact hr ▸ h
    · exact h
  · rw [heq, holders_set]
    split
    · rename_i hr
      subst hr
      have hqueued := holders_lockOrNew t r' ty
      rw [← hqueued] at h
      exact h
    · exact h

/-- Only its own release takes a lock from a client. -/
theorem mem_holders_applyRelease [DecidableEq τ] {t : LockTable C R τ} {f : C} {r : R}
    (h : f ∈ t.holders r) {c : C} (hne : f ≠ c) (r' : R) :
    f ∈ (applyRelease t c r').1.holders r := by
  by_cases hc : c ∈ t.holders r'
  · rw [holders_applyRelease hc]
    split
    · rename_i hr
      subst hr
      exact Finset.mem_union_left _ (Finset.mem_erase.mpr ⟨hne, h⟩)
    · exact h
  · rw [applyRelease_not_held hc]
    exact h

theorem mem_holders_of_acquire_init (env : Env C τ) (c : C) (r : R) (ty : LockType) :
    c ∈ (applyAcquire env (init : LockTable C R τ) c r ty).1.holders r := by
  have hfree : ((init : LockTable C R τ).lockOrNew r ty).canAcquire c ty = true := rfl
  rw [applyAcquire_granted env hfree, holders_set, if_pos rfl]
  exact Finset.mem_insert_self _ _

end LockTable

/-! ## When a command raises -/

/-- The key under which the client of a command is stored. -/
def Command.clientKey {Rid : Type*} : Command Json Json Rid → Option Key
  | .acquire clientId _ _ _ => clientId.key.toOption
  | .release clientId _ => clientId.key.toOption
  | .other => none

namespace JsonManager

variable {Rid τ : Type*} [DecidableEq Rid] [DecidableEq τ]

/-- A command with hashable ids is applied as `LocalManager` applies it. -/
theorem applyCommand_of_hashable (env : Env Key τ) (m : JsonManager Rid τ)
    {cmd : Command Json Json Rid} (h : cmd.Hashable) :
    ∃ status, (applyCommand env m cmd).2 = .ok status := by
  cases cmd with
  | acquire clientId resourceId ty requestId =>
    obtain ⟨hclient, hresource⟩ := h _ rfl
    obtain ⟨c, hc⟩ := (Json.hashable_iff clientId).mp hclient
    obtain ⟨r, hr⟩ := (Json.hashable_iff resourceId).mp hresource
    simp only [applyCommand, applyAcquire, hc, hr]
    exact ⟨_, rfl⟩
  | release clientId resourceId =>
    obtain ⟨hclient, hresource⟩ := h _ rfl
    obtain ⟨c, hc⟩ := (Json.hashable_iff clientId).mp hclient
    obtain ⟨r, hr⟩ := (Json.hashable_iff resourceId).mp hresource
    simp only [applyCommand, applyRelease, hc, hr]
    split
    · exact ⟨_, rfl⟩
    · exact ⟨_, rfl⟩
  | other => exact ⟨none, rfl⟩

theorem table_applyCommand_acquire (env : Env Key τ) (m : JsonManager Rid τ)
    {clientId resourceId : Json} {c r : Key} (hc : clientId.key = .ok c)
    (hr : resourceId.key = .ok r) (ty : LockType) (requestId : Option Rid) :
    (applyCommand env m (.acquire clientId resourceId ty requestId)).1.table =
      (m.table.applyAcquire env c r ty).1 := by
  have htable := LocalManager.applyAcquire_table env m c r ty requestId
  rw [Prod.ext_iff] at htable
  simp only [applyCommand, applyAcquire, hc, hr]
  exact htable.1

/-- A holder keeps its lock through the commands of others, those that raise included. -/
theorem mem_holders_applyCommand (env : Env Key τ) {m : JsonManager Rid τ}
    {cmd : Command Json Json Rid} {f r : Key} (hf : f ∈ m.table.holders r)
    (hne : cmd.clientKey ≠ some f) : f ∈ (applyCommand env m cmd).1.table.holders r := by
  cases cmd with
  | acquire clientId resourceId ty requestId =>
    cases hr' : resourceId.key with
    | error e =>
      simp only [applyCommand, applyAcquire, hr']
      exact hf
    | ok r' =>
      cases hc : clientId.key with
      | error e =>
        simp only [applyCommand, applyAcquire, hr', hc, LockTable.holders_set]
        split
        · rename_i hr
          subst hr
          split
          · exact (LockTable.holders_lockOrNew m.table r' ty).symm ▸ hf
          · exact (LockTable.holders_lockOrNew m.table r' ty).symm ▸ hf
        · exact hf
      | ok c =>
        rw [table_applyCommand_acquire env m hc hr']
        exact LockTable.mem_holders_applyAcquire env hf c r' ty
  | release clientId resourceId =>
    cases hr' : resourceId.key with
    | error e =>
      simp only [applyCommand, applyRelease, hr']
      exact hf
    | ok r' =>
      simp only [applyCommand, applyRelease, hr']
      split
      · cases hc : clientId.key with
        | error e => exact hf
        | ok c =>
          have hfc : f ≠ c := by
            rintro rfl
            apply hne
            simp only [Command.clientKey, hc]
            rfl
          exact LockTable.mem_holders_applyRelease hf hfc r'
      · exact hf
  | other => exact hf

/-- A command with an id that cannot be hashed raises where its resource is locked. -/
theorem applyCommand_raises (env : Env Key τ) {m : JsonManager Rid τ} {clientId resourceId : Json}
    {cmd : Command Json Json Rid} (hcmd : cmd.ids = some (clientId, resourceId))
    (h : ¬ cmd.Hashable) (hlocked : ∀ r, resourceId.key = .ok r → m.table.holders r ≠ ∅) :
    ∃ e, (applyCommand env m cmd).2 = .error e := by
  have hids : ¬ (clientId.Hashable ∧ resourceId.Hashable) := by
    intro hboth
    apply h
    intro ids hmem
    rw [hcmd, Option.mem_some_iff] at hmem
    subst hmem
    exact hboth
  cases hr : resourceId.key with
  | error e =>
    cases cmd with
    | acquire c r ty rid =>
      cases hcmd
      exact ⟨e, by simp [applyCommand, applyAcquire, hr, Except.map]⟩
    | release c r =>
      cases hcmd
      exact ⟨e, by simp [applyCommand, applyRelease, hr, Except.map]⟩
    | other => cases hcmd
  | ok r =>
    have hresource : resourceId.Hashable := (Json.hashable_iff _).mpr ⟨r, hr⟩
    cases hc : clientId.key with
    | ok c => exact absurd ⟨(Json.hashable_iff _).mpr ⟨c, hc⟩, hresource⟩ hids
    | error e =>
      cases cmd with
      | acquire c r' ty rid =>
        cases hcmd
        exact ⟨e, by simp [applyCommand, applyAcquire, hr, hc, Except.map]⟩
      | release c r' =>
        cases hcmd
        have hin : m.table.locks.contains r = true := by
          rw [Dict.contains_iff]
          exact ⟨_, LockTable.get?_of_holders_ne_empty .exclusive (hlocked r hr)⟩
        exact ⟨e, by simp [applyCommand, applyRelease, hr, hc, hin, Except.map]⟩
      | other => cases hcmd

/-! ## `_apply_committed` -/

theorem applyLoop_of_hashable (env : ℕ → Env Key τ) {log : List (Command Json Json Rid)} (k : ℕ)
    (m : JsonManager Rid τ) (lastApplied : ℕ)
    (h : ∀ j cmd, lastApplied ≤ j → j < lastApplied + k → log[j]? = some cmd → cmd.Hashable) :
    (applyLoop env log k m lastApplied).2 = (lastApplied + k, .ok ()) := by
  induction k generalizing m lastApplied with
  | zero => rfl
  | succ k ih =>
    have hrest : ∀ j cmd, lastApplied + 1 ≤ j → j < lastApplied + 1 + k → log[j]? = some cmd →
        cmd.Hashable := by
      intro j cmd hj hjk
      exact h j cmd (by omega) (by omega)
    have hcount : lastApplied + 1 + k = lastApplied + (k + 1) := by omega
    simp only [applyLoop]
    cases hget : log[lastApplied]? with
    | none =>
      simp only
      rw [ih _ _ hrest, hcount]
    | some cmd =>
      obtain ⟨status, hst⟩ := applyCommand_of_hashable (env (lastApplied + 1)) m
        (h lastApplied cmd le_rfl (by omega) hget)
      simp only
      split
      · rw [ih _ _ hrest, hcount]
      · rename_i heq
        rw [heq] at hst
        cases hst

theorem applyLoop_raises (env : ℕ → Env Key τ) {log : List (Command Json Json Rid)} {f : Key}
    (hfresh : ∀ cmd ∈ log, cmd.clientKey ≠ some f) {clientId resourceId : Json}
    {cmd : Command Json Json Rid} (hids : cmd.ids = some (clientId, resourceId))
    (hcmd : ¬ cmd.Hashable) {j : ℕ} (hj : log[j]? = some cmd) (k : ℕ) (m : JsonManager Rid τ)
    (lastApplied : ℕ) (hlow : lastApplied ≤ j) (hhigh : j < lastApplied + k)
    (hheld : ∀ r, resourceId.key = .ok r → f ∈ m.table.holders r) :
    ∃ e, (applyLoop env log k m lastApplied).2.2 = .error e := by
  induction k generalizing m lastApplied with
  | zero => omega
  | succ k ih =>
    obtain ⟨next, hnext⟩ : ∃ next, log[lastApplied]? = some next := by
      have hlength := (List.getElem?_eq_some_iff.mp hj).1
      exact ⟨_, List.getElem?_eq_getElem (by omega)⟩
    have hnextMem : next ∈ log := List.mem_of_getElem? hnext
    simp only [applyLoop, hnext]
    rcases Nat.lt_or_ge lastApplied j with hlt | hge
    · -- the entry of `cmd` comes later, unless this one raises already
      split
      · rename_i m' status heq
        apply ih m' (lastApplied + 1) (by omega) (by omega)
        intro r hr
        have hstay := mem_holders_applyCommand (env (lastApplied + 1)) (hheld r hr)
          (hfresh next hnextMem)
        rw [heq] at hstay
        exact hstay
      · exact ⟨_, rfl⟩
    · obtain rfl : lastApplied = j := by omega
      obtain rfl : next = cmd := Option.some.inj (hnext.symm.trans hj)
      have hlocked : ∀ r, resourceId.key = .ok r → m.table.holders r ≠ ∅ :=
        fun r hr => Finset.ne_empty_of_mem (hheld r hr)
      obtain ⟨e, he⟩ := applyCommand_raises (env (lastApplied + 1)) hids hcmd hlocked
      split
      · rename_i heq
        rw [heq] at he
        cases he
      · exact ⟨_, rfl⟩

omit [DecidableEq Rid] in
/-- A number that no command of the log names as its client. -/
theorem exists_fresh_client (log : List (Command Json Json Rid)) :
    ∃ n : ℕ, ∀ cmd ∈ log, cmd.clientKey ≠ some (.number ((n + 1 : ℕ) : ℤ)) := by
  have hinj : Function.Injective fun n : ℕ => Key.number (((n + 1 : ℕ) : ℤ) : ℚ) := by
    intro n n' h
    have hnumber := Key.number.inj h
    norm_cast at hnumber
    omega
  obtain ⟨key, ⟨n, rfl⟩, hn⟩ := (Set.infinite_range_of_injective hinj).exists_notMem_finset
    (log.filterMap Command.clientKey).toFinset
  refine ⟨n, fun cmd hcmd heq => hn ?_⟩
  rw [List.mem_toFinset, List.mem_filterMap]
  exact ⟨cmd, hcmd, heq⟩

/-- Some node has the resource locked by a client the log does not name. -/
theorem exists_reachable_locked (requestId : Json → Json → ℚ → Rid) (env : Env Key τ)
    (log : List (Command Json Json Rid)) {resourceId : Json} (hr : resourceId.truthy = true) :
    ∃ (m : JsonManager Rid τ) (f : Key), Reachable requestId m ∧
      (∀ cmd ∈ log, cmd.clientKey ≠ some f) ∧
      ∀ r, resourceId.key = .ok r → f ∈ m.table.holders r := by
  obtain ⟨n, hn⟩ := exists_fresh_client log
  have hclient : (Json.int ((n + 1 : ℕ) : ℤ)).truthy = true := by
    simp only [Json.truthy]
    exact decide_eq_true (by omega)
  have haccepted := accepted_acquire requestId 0 hclient hr
  refine ⟨_, _, .apply env Dict.empty .init haccepted, hn, ?_⟩
  intro r hkey
  rw [table_applyCommand_acquire env _ rfl hkey]
  exact LockTable.mem_holders_of_acquire_init env _ r .exclusive

variable [Inhabited τ]

/-- A command completes on every node exactly when its ids can be hashed. -/
theorem applyCommand_ok_iff (requestId : Json → Json → ℚ → Rid) {cmd : Command Json Json Rid}
    (hcmd : Accepted requestId cmd) :
    (∀ m : JsonManager Rid τ, Reachable requestId m → ∀ env,
        ∃ status, (applyCommand env m cmd).2 = .ok status) ↔ cmd.Hashable := by
  constructor
  · intro hok
    by_contra hnot
    obtain ⟨clientId, resourceId, hids, -, htruthy⟩ := hcmd.truthy
    obtain ⟨m, f, hm, -, hheld⟩ := exists_reachable_locked requestId
      (⟨default, default⟩ : Env Key τ) [] htruthy
    obtain ⟨e, he⟩ := applyCommand_raises ⟨default, default⟩ hids hnot
      fun r hr => Finset.ne_empty_of_mem (hheld r hr)
    obtain ⟨status, hst⟩ := hok m hm ⟨default, default⟩
    rw [he] at hst
    cases hst
  · intro h m _ env
    exact applyCommand_of_hashable env m h

/-- `_apply_committed` comes to its end on every node exactly when no entry it applies has an id
    that cannot be hashed. -/
theorem applyCommitted_ok_iff (requestId : Json → Json → ℚ → Rid)
    {log : List (Command Json Json Rid)} (hlog : ∀ cmd ∈ log, Accepted requestId cmd)
    (commitIndex lastApplied : ℕ) :
    (∀ m : JsonManager Rid τ, Reachable requestId m → ∀ env,
        (applyCommitted env log commitIndex m lastApplied).2.2 = .ok ()) ↔
      ∀ j cmd, lastApplied ≤ j → j < commitIndex → log[j]? = some cmd → cmd.Hashable := by
  constructor
  · intro hok j cmd hlow hhigh hj
    by_contra hcmd
    obtain ⟨clientId, resourceId, hids, -, htruthy⟩ := (hlog cmd (List.mem_of_getElem? hj)).truthy
    obtain ⟨m, f, hm, hfresh, hheld⟩ := exists_reachable_locked requestId
      (⟨default, default⟩ : Env Key τ) log htruthy
    obtain ⟨e, he⟩ := applyLoop_raises (fun _ => ⟨default, default⟩) hfresh hids hcmd hj
      (commitIndex - lastApplied) m lastApplied hlow (by omega) hheld
    have hend := hok m hm fun _ => ⟨default, default⟩
    rw [applyCommitted, he] at hend
    cases hend
  · intro h m _ env
    have hentries : ∀ j cmd, lastApplied ≤ j → j < lastApplied + (commitIndex - lastApplied) →
        log[j]? = some cmd → cmd.Hashable :=
      fun j cmd hlow hhigh hj => h j cmd hlow (by omega) hj
    rw [applyCommitted, applyLoop_of_hashable env _ m lastApplied hentries]

/-- **Poison pills.** Of the commands that the handlers accept, exactly those with a list or a dict
for an id raise on some node, and exactly a log that has one of them to apply makes
`_apply_committed` stop half way on some node. -/
theorem completes_iff (requestId : Json → Json → ℚ → Rid) (log : List (Command Json Json Rid))
    (hlog : ∀ cmd ∈ log, Accepted requestId cmd) :
    (∀ cmd ∈ log,
      (∀ m : JsonManager Rid τ, Reachable requestId m → ∀ env,
        ∃ status, (applyCommand env m cmd).2 = .ok status) ↔ cmd.Hashable) ∧
    ∀ commitIndex lastApplied,
      (∀ m : JsonManager Rid τ, Reachable requestId m → ∀ env,
        (applyCommitted env log commitIndex m lastApplied).2.2 = .ok ()) ↔
      ∀ j cmd, lastApplied ≤ j → j < commitIndex → log[j]? = some cmd → cmd.Hashable :=
  ⟨fun _ hcmd => applyCommand_ok_iff requestId (hlog _ hcmd),
    fun commitIndex lastApplied => applyCommitted_ok_iff requestId hlog commitIndex lastApplied⟩

/-! ## A body with a list for a client -/

/-- `{"client_id": ..., "resource_id": "r"}`. -/
def body (clientId : Json) : Json :=
  .object [("client_id", clientId), ("resource_id", .string "r")]

/-- The command of a POST to `/lock/acquire`, every request id being 0. -/
def acquireBody (clientId : Json) : Command Json Json ℕ :=
  .acquire clientId (.string "r") .exclusive (some 0)

theorem completes_iff_two_clients :
    let log := [acquireBody (.string "c1"), acquireBody (.array [.int 1])]
    (∀ cmd ∈ log,
      (∀ m : JsonManager ℕ ℕ, Reachable (fun _ _ _ => 0) m → ∀ env,
        ∃ status, (applyCommand env m cmd).2 = .ok status) ↔ cmd.Hashable) ∧
    ∀ commitIndex lastApplied,
      (∀ m : JsonManager ℕ ℕ, Reachable (fun _ _ _ => 0) m → ∀ env,
        (applyCommitted env log commitIndex m lastApplied).2.2 = .ok ()) ↔
      ∀ j cmd, lastApplied ≤ j → j < commitIndex → log[j]? = some cmd → cmd.Hashable := by
  apply completes_iff
  intro cmd hcmd
  rw [List.mem_pair] at hcmd
  rcases hcmd with rfl | rfl
  · exact ⟨0, .acquire, body (.string "c1"), by rfl⟩
  · exact ⟨0, .acquire, body (.array [.int 1]), by rfl⟩

/-- The handler accepts the list, and the second command of the log is never applied: its turn was
    taken by the one that raised, which has left an empty lock behind. -/
theorem list_for_a_client :
    let env : Env Key ℕ := ⟨default, 0⟩
    let cmd := acquireBody (.array [.int 1])
    let s := applyCommitted (fun _ => env) [cmd, acquireBody (.string "c1")] 2
      (LocalManager.init : JsonManager ℕ ℕ) 0
    accept (fun _ _ _ => 0) 0 .acquire (body (.array [.int 1])) = some cmd ∧
      Reachable (fun _ _ _ => 0) (LocalManager.init : JsonManager ℕ ℕ) ∧
      (applyCommand env (LocalManager.init : JsonManager ℕ ℕ) cmd).2 = .error .list ∧
      s.2 = (1, .error .list) ∧
      s.1.table.locks.map Lock.content = Dict.empty.set (.string "r") (.exclusive, ∅, []) :=
  ⟨rfl, .init, rfl, rfl, rfl⟩

end JsonManager

end Pynchronize
