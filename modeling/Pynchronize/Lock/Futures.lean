import Pynchronize.Lock.Calls

/-!
# Registered futures

`Bookkeeping` ties the futures in `pending_requests` to their calls: a future
that is done was denied, or got the answer to the command of its own call,
unless two calls share their request id.
-/

namespace Pynchronize.LockCluster

open Lib

variable {N C R Rid : Type*}

/-- The command at `index` is the one that its call proposed there. -/
def Names (s : LockCluster N C R Rid) (index : ℕ) (p : Proposal C R Rid) : Prop :=
  ∃ call, s.calls[p.call]? = some call ∧ call.args.index = some index ∧
    call.args.command = p.command

/-- Another call has the request id of call `k`. -/
def Collides (s : LockCluster N C R Rid) (k : ℕ) : Prop :=
  ∃ (k' : ℕ) (call call' : Call N C R Rid) (requestId : Rid), k' ≠ k ∧ s.calls[k]? = some call ∧
    s.calls[k']? = some call' ∧ call.args.requestId = some requestId ∧
    call'.args.requestId = some requestId

/-- How the future of a pending call can have got its status. -/
def Resolved (s : LockCluster N C R Rid) (k : ℕ) (i : N) (status : LockStatus) : Prop :=
  status = .denied ∨ ((status = .acquired ∨ status = .deadlock) ∧
    ((k, status) ∈ (s.managers i).replica.answers ∨ s.Collides k))

theorem Names.mono {s s' : LockCluster N C R Rid} {index : ℕ} {p : Proposal C R Rid}
    (h : s.Names index p) (hk : KeepsCalls s s') : s'.Names index p := by
  obtain ⟨call, hcall, hindex, hcommand⟩ := h
  obtain ⟨call', hcall', hkept⟩ := hk _ call hcall
  exact ⟨call', hcall', by rw [hkept.args]; exact hindex, by rw [hkept.args]; exact hcommand⟩

theorem Collides.mono {s s' : LockCluster N C R Rid} {k : ℕ} (h : s.Collides k)
    (hkeep : KeepsCalls s s') : s'.Collides k := by
  obtain ⟨k', call, other, requestId, hne, hcall, hother, hid, hid'⟩ := h
  obtain ⟨call', hcall', hkept⟩ := hkeep k call hcall
  obtain ⟨other', hother', hkept'⟩ := hkeep k' other hother
  exact ⟨k', call', other', requestId, hne, hcall', hother', by rw [hkept.args]; exact hid,
    by rw [hkept'.args]; exact hid'⟩

/-- The calls and the futures that are registered for them. -/
structure Bookkeeping (cfg : LockConfig N C R Rid) [DecidableEq Rid] (s : LockCluster N C R Rid) :
    Prop where
  nodes : ∀ (k : ℕ) call, s.calls[k]? = some call → call.args.node ∈ cfg.nodes
  registered : ∀ i requestId k, (s.managers i).pendingRequests.get? requestId = some k →
    ∃ call, s.calls[k]? = some call ∧ call.args.node = i ∧ call.args.requestId = some requestId
  futures : ∀ (k : ℕ) call status, s.calls[k]? = some call → call.Pending →
    call.future = some status → s.Resolved k call.args.node status
  messages : ∀ (k : ℕ) call, s.calls[k]? = some call → call.message.isSome = true →
    call.args.index = none
  indices : ∀ (k : ℕ) call, s.calls[k]? = some call → call.Pending → call.args.index.isSome = true
  children : ∀ (k : ℕ) call target j, s.calls[k]? = some call →
    call.message = some (target, .handled j) →
    ∃ child, s.calls[j]? = some child ∧ child.args.op = call.args.op

/-- A call before and after a part of a step. -/
structure Continues (s' : LockCluster N C R Rid) (k : ℕ) (call call' : Call N C R Rid) : Prop where
  args : call'.args = call.args
  pending : call'.Pending → call.Pending
  future : call'.Pending → ∀ status, call'.future = some status →
    call.future = some status ∨ s'.Resolved k call'.args.node status
  message : call'.message.isSome = true → call.message.isSome = true
  child : ∀ target j, call'.message = some (target, .handled j) →
    call.message = some (target, .handled j) ∨
      ∃ child, s'.calls[j]? = some child ∧ child.args.op = call.args.op

theorem Continues.refl (s' : LockCluster N C R Rid) (k : ℕ) (call : Call N C R Rid) :
    Continues s' k call call :=
  ⟨rfl, id, fun _ _ h => Or.inl h, id, fun _ _ h => Or.inl h⟩

variable [DecidableEq Rid] {cfg : LockConfig N C R Rid}

theorem Bookkeeping.continues {s s' : LockCluster N C R Rid} (h : Bookkeeping cfg s)
    (hkeep : KeepsCalls s s')
    (hcalls : ∀ (k : ℕ) call', s'.calls[k]? = some call' →
      ∃ call, s.calls[k]? = some call ∧ Continues s' k call call')
    (hanswers : ∀ (k : ℕ) call', s'.calls[k]? = some call' → call'.Pending →
      ∀ x ∈ (s.managers call'.args.node).replica.answers,
        x ∈ (s'.managers call'.args.node).replica.answers)
    (hpending : ∀ i requestId k, (s'.managers i).pendingRequests.get? requestId = some k →
      (s.managers i).pendingRequests.get? requestId = some k) : Bookkeeping cfg s' where
  nodes k call' hk := by
    obtain ⟨call, hcall, hcont⟩ := hcalls k call' hk
    rw [hcont.args]
    exact h.nodes k call hcall
  registered i requestId k hreg := by
    obtain ⟨call, hcall, hnode, hid⟩ := h.registered i requestId k (hpending i requestId k hreg)
    obtain ⟨call', hcall', hkept⟩ := hkeep k call hcall
    exact ⟨call', hcall', by rw [hkept.args]; exact hnode, by rw [hkept.args]; exact hid⟩
  futures k call' status hk hp hf := by
    obtain ⟨call, hcall, hcont⟩ := hcalls k call' hk
    rcases hcont.future hp status hf with hold | hres
    · rcases h.futures k call status hcall (hcont.pending hp) hold with hd | ⟨hst, hans | hcol⟩
      · exact Or.inl hd
      · refine Or.inr ⟨hst, Or.inl (hanswers k call' hk hp _ ?_)⟩
        rw [hcont.args]
        exact hans
      · exact Or.inr ⟨hst, Or.inr (hcol.mono hkeep)⟩
    · exact hres
  messages k call' hk hm := by
    obtain ⟨call, hcall, hcont⟩ := hcalls k call' hk
    rw [hcont.args]
    exact h.messages k call hcall (hcont.message hm)
  indices k call' hk hp := by
    obtain ⟨call, hcall, hcont⟩ := hcalls k call' hk
    rw [hcont.args]
    exact h.indices k call hcall (hcont.pending hp)
  children k call' target j hk hm := by
    obtain ⟨call, hcall, hcont⟩ := hcalls k call' hk
    rcases hcont.child target j hm with hold | hnew
    · obtain ⟨child, hchild, hop⟩ := h.children k call target j hcall hold
      obtain ⟨child', hchild', hkept⟩ := hkeep j child hchild
      exact ⟨child', hchild', by rw [hkept.args, hcont.args]; exact hop⟩
    · rw [hcont.args]
      exact hnew

theorem Bookkeeping.withRaft {s : LockCluster N C R Rid} (h : Bookkeeping cfg s)
    (raft : Cluster N (Proposal C R Rid)) : Bookkeeping cfg { s with raft := raft } :=
  ⟨h.nodes, h.registered, h.futures, h.messages, h.indices, h.children⟩

/-- A new call: it registers at most its own future. -/
theorem Bookkeeping.add {s s' : LockCluster N C R Rid} (h : Bookkeeping cfg s)
    {call : Call N C R Rid} (hcalls : s'.calls = s.calls ++ [call])
    (hnode : call.args.node ∈ cfg.nodes) (hfuture : call.future = none)
    (hmessage : call.message.isSome = true → call.args.index = none)
    (hindex : call.Pending → call.args.index.isSome = true)
    (hchild : ∀ target j, call.message ≠ some (target, .handled j))
    (hreplica : ∀ i, (s'.managers i).replica = (s.managers i).replica)
    (hpending : ∀ i requestId k, (s'.managers i).pendingRequests.get? requestId = some k →
      (s.managers i).pendingRequests.get? requestId = some k ∨
        k = s.calls.length ∧ call.args.node = i ∧ call.args.requestId = some requestId) :
    Bookkeeping cfg s' := by
  have hkeep : KeepsCalls s s' := by
    intro k other hk
    have hlt := (List.getElem?_eq_some_iff.mp hk).1
    refine ⟨other, ?_, Call.Kept.refl other⟩
    rw [hcalls, List.getElem?_append_left hlt, hk]
  have hcases : ∀ {k : ℕ} {other : Call N C R Rid}, s'.calls[k]? = some other →
      s.calls[k]? = some other ∨ (k = s.calls.length ∧ other = call) := fun hk =>
    getElem?_concat_cases (hcalls ▸ hk)
  exact
    { nodes := fun k other hk => by
        rcases hcases hk with hold | ⟨rfl, rfl⟩
        · exact h.nodes k other hold
        · exact hnode
      registered := fun i requestId k hreg => by
        rcases hpending i requestId k hreg with hold | ⟨rfl, hi, hid⟩
        · obtain ⟨other, hother, hi, hid⟩ := h.registered i requestId k hold
          obtain ⟨other', hother', hkept⟩ := hkeep k other hother
          exact ⟨other', hother', by rw [hkept.args]; exact hi, by rw [hkept.args]; exact hid⟩
        · exact ⟨call, by rw [hcalls]; simp, hi, hid⟩
      futures := fun k other status hk hp hf => by
        rcases hcases hk with hold | ⟨rfl, rfl⟩
        · rcases h.futures k other status hold hp hf with hd | ⟨hst, hans | hcol⟩
          · exact Or.inl hd
          · exact Or.inr ⟨hst, Or.inl (by rw [hreplica]; exact hans)⟩
          · exact Or.inr ⟨hst, Or.inr (hcol.mono hkeep)⟩
        · rw [hfuture] at hf
          cases hf
      messages := fun k other hk hm => by
        rcases hcases hk with hold | ⟨rfl, rfl⟩
        · exact h.messages k other hold hm
        · exact hmessage hm
      indices := fun k other hk hp => by
        rcases hcases hk with hold | ⟨rfl, rfl⟩
        · exact h.indices k other hold hp
        · exact hindex hp
      children := fun k other target j hk hm => by
        rcases hcases hk with hold | ⟨rfl, rfl⟩
        · obtain ⟨child, hchild, hop⟩ := h.children k other target j hold hm
          obtain ⟨child', hchild', hkept⟩ := hkeep j child hchild
          exact ⟨child', hchild', by rw [hkept.args]; exact hop⟩
        · exact absurd hm (hchild target j) }

variable [DecidableEq N]

omit [DecidableEq Rid] in
theorem managers_setManager_self (s : LockCluster N C R Rid) (i : N) (m : LockManager C R Rid) :
    (s.setManager i m).managers i = m := Function.update_self ..

omit [DecidableEq Rid] in
theorem managers_setManager_of_ne (s : LockCluster N C R Rid) {i j : N} (h : j ≠ i)
    (m : LockManager C R Rid) : (s.setManager i m).managers j = s.managers j :=
  Function.update_of_ne h ..

/-- A manager that has lost futures and won answers. -/
structure LockManager.Sheds (m m' : LockManager C R Rid) : Prop where
  answers : ∀ x ∈ m.replica.answers, x ∈ m'.replica.answers
  pending : ∀ requestId k, m'.pendingRequests.get? requestId = some k →
    m.pendingRequests.get? requestId = some k

omit [DecidableEq N] in
theorem LockManager.Sheds.refl (m : LockManager C R Rid) : Sheds m m :=
  ⟨fun _ h => h, fun _ _ h => h⟩

theorem sheds_setManager {s : LockCluster N C R Rid} {i : N} {m : LockManager C R Rid}
    (h : LockManager.Sheds (s.managers i) m) (j : N) :
    LockManager.Sheds (s.managers j) ((s.setManager i m).managers j) := by
  rcases eq_or_ne j i with rfl | hne
  · rwa [managers_setManager_self]
  · rw [managers_setManager_of_ne s hne]
    exact .refl _

omit [DecidableEq N] in
/-- Some futures are resolved. -/
theorem Bookkeeping.results {s s' : LockCluster N C R Rid} (h : Bookkeeping cfg s)
    {which : ℕ → Bool} {status : LockStatus} (hcalls : s'.calls = setResults s.calls which status)
    (hres : ∀ (k : ℕ) call, s.calls[k]? = some call → which k = true →
      s'.Resolved k call.args.node status)
    (hsheds : ∀ i, LockManager.Sheds (s.managers i) (s'.managers i)) : Bookkeeping cfg s' := by
  refine h.continues (KeepsCalls.of_outlines (outlines_setResults hcalls)) (fun k call' hk => ?_)
    (fun k call' _ _ => (hsheds _).answers) fun i => (hsheds i).pending
  rw [hcalls, getElem?_setResults] at hk
  obtain ⟨call, hcall, rfl⟩ := Option.map_eq_some_iff.mp hk
  refine ⟨call, hcall, ?_⟩
  split
  · rename_i hwhich
    have heq := Call.outline_setResult status call
    have hargs : (call.setResult status).args = call.args := congrArg (·.1) heq
    have hmessage : (call.setResult status).message = call.message := congrArg (·.2.2) heq
    have hstage : (call.setResult status).stage = call.stage := congrArg (·.2.1) heq
    refine ⟨hargs, fun hp => ?_, fun hp st hf => ?_, fun hm => hmessage ▸ hm,
      fun target j hm => Or.inl (hmessage ▸ hm)⟩
    · rcases hp with hw | ⟨task, hw⟩
      · exact Or.inl (hstage ▸ hw)
      · exact Or.inr ⟨task, hstage ▸ hw⟩
    · rcases Call.future_setResult hf with hold | rfl
      · exact Or.inl hold
      · rw [hargs]
        exact Or.inr (hres k call hcall hwhich)
  · exact Continues.refl s' k call

/-- A call changes, and its node sheds futures. -/
theorem Bookkeeping.set {s : LockCluster N C R Rid} (h : Bookkeeping cfg s) {i : N}
    {m : LockManager C R Rid} (hm : LockManager.Sheds (s.managers i) m) {k : ℕ}
    {call call' : Call N C R Rid} (hk : s.calls[k]? = some call) (hkept : Call.Kept call call')
    (hcont : Continues ((s.setManager i m).setCall k call') k call call') :
    Bookkeeping cfg ((s.setManager i m).setCall k call') := by
  refine h.continues ?_ (fun j other hj => ?_) (fun j other _ _ => (sheds_setManager hm _).answers)
    fun j => (sheds_setManager hm j).pending
  · exact keepsCalls_setCall (s := s) hk hkept
  · rcases getElem?_set_cases hj with ⟨rfl, rfl⟩ | ⟨-, hold⟩
    · exact ⟨call, hk, hcont⟩
    · exact ⟨other, hold, Continues.refl _ j other⟩

variable [DecidableEq C] [DecidableEq R]

omit [DecidableEq C] [DecidableEq R] in
theorem Bookkeeping.onLoseLeadership {s : LockCluster N C R Rid} (h : Bookkeeping cfg s) (i : N) :
    Bookkeeping cfg (s.onLoseLeadership i) := by
  refine h.results rfl (fun k call _ _ => Or.inl rfl) fun j => ?_
  show LockManager.Sheds (s.managers j) ((s.setManager i _).managers j)
  refine sheds_setManager ?_ j
  exact ⟨fun _ hx => hx, fun _ _ hreg => by cases hreg⟩

omit [DecidableEq C] [DecidableEq R] in
theorem Bookkeeping.stepDownCallback {s : LockCluster N C R Rid} (h : Bookkeeping cfg s) (i : N)
    (n n' : RaftNode N (Proposal C R Rid)) : Bookkeeping cfg (s.stepDownCallback i n n') := by
  unfold LockCluster.stepDownCallback
  split
  · exact h.onLoseLeadership i
  · exact h

omit [DecidableEq C] [DecidableEq R] in
theorem Bookkeeping.restart {s : LockCluster N C R Rid} (h : Bookkeeping cfg s) (i : N) :
    Bookkeeping cfg (s.restart i) := by
  have hself : (s.restart i).managers i = LockManager.init := managers_setManager_self s i _
  have hother : ∀ j, j ≠ i → (s.restart i).managers j = s.managers j :=
    fun j hne => managers_setManager_of_ne s hne _
  refine h.continues (keepsCalls_restart s i) (fun k call' hk => ?_) (fun k call' hk hp x hx => ?_)
    fun j requestId k hreg => ?_
  · obtain ⟨call, hcall, ⟨-, rfl⟩ | ⟨-, rfl⟩⟩ := exists_restart hk
    · exact ⟨call, hcall,
        { args := (Call.kept_crash call).args
          pending := fun hp => absurd hp (Call.not_pending_crash call)
          future := fun hp => absurd hp (Call.not_pending_crash call)
          message := fun hm => (Call.message_crash call) ▸ hm
          child := fun target j hm => Or.inl ((Call.message_crash call) ▸ hm) }⟩
    · exact ⟨call', hcall, Continues.refl _ k call'⟩
  · obtain ⟨call, hcall, ⟨-, rfl⟩ | ⟨hne, rfl⟩⟩ := exists_restart hk
    · exact absurd hp (Call.not_pending_crash call)
    · rw [hother _ hne]
      exact hx
  · rcases eq_or_ne j i with rfl | hne
    · rw [hself] at hreg
      cases hreg
    · rwa [hother j hne] at hreg

omit [DecidableEq N] [DecidableEq C] [DecidableEq R] [DecidableEq Rid] in
theorem CallArgs.requestId_command {args : CallArgs N C R Rid} {requestId : Rid}
    (h : args.command.requestId = some requestId) : args.requestId = some requestId := by
  unfold CallArgs.command at h
  split at h
  · exact h
  · cases h

omit [DecidableEq C] [DecidableEq R] in
/-- A future popped under the request id of a command belongs to the call of the command, or to
    one that has the same request id. -/
theorem Bookkeeping.resolve {s : LockCluster N C R Rid} (h : Bookkeeping cfg s) {i : N}
    {index : ℕ} {p : Proposal C R Rid} {requestId : Rid} {status : LockStatus}
    (hnames : s.Names index p) (hid : p.command.requestId = some requestId)
    (hstatus : status = .acquired ∨ status = .deadlock)
    (hanswer : (p.call, status) ∈ (s.managers i).replica.answers) :
    Bookkeeping cfg (s.resolve i requestId status) := by
  have hkeep : KeepsCalls s (s.resolve i requestId status) :=
    KeepsCalls.of_outlines (outlines_resolve s i requestId status)
  revert hkeep
  unfold LockCluster.resolve
  dsimp only
  split
  · rename_i k hreg
    intro hkeep
    refine h.results rfl (fun j call hj hwhich => ?_) fun j => ?_
    · obtain rfl : j = k := by simpa using hwhich
      obtain ⟨call', hcall', hnode, hid'⟩ := h.registered i requestId j hreg
      obtain rfl := Option.some.inj (hj.symm.trans hcall')
      obtain ⟨owner, howner, -, hcommand⟩ := hnames
      refine Or.inr ⟨hstatus, ?_⟩
      rcases eq_or_ne p.call j with rfl | hne
      · refine Or.inl ?_
        rw [hnode]
        show (p.call, status) ∈ ((s.setManager i _).managers i).replica.answers
        rw [managers_setManager_self]
        exact hanswer
      · have hidOwner := CallArgs.requestId_command (hcommand ▸ hid)
        have hcollides : s.Collides j :=
          ⟨p.call, call, owner, requestId, hne, hj, howner, hid', hidOwner⟩
        exact Or.inr (hcollides.mono hkeep)
    · show LockManager.Sheds (s.managers j) ((s.setManager i _).managers j)
      refine sheds_setManager ?_ j
      refine ⟨fun _ hx => hx, fun requestId' k' hreg' => ?_⟩
      rw [Dict.get?_erase] at hreg'
      split at hreg'
      · cases hreg'
      · exact hreg'
  · exact fun _ => h

theorem Bookkeeping.applyProposal {s : LockCluster N C R Rid} (h : Bookkeeping cfg s)
    (env : Env C ℚ) (i : N) {index : ℕ} {p : Proposal C R Rid} (hnames : s.Names index p) :
    Bookkeeping cfg (applyProposal env i s p) := by
  have hextended : Bookkeeping cfg (s.extended env i p) := by
    have hsheds : ∀ j, LockManager.Sheds (s.managers j) ((s.extended env i p).managers j) := by
      intro j
      show LockManager.Sheds (s.managers j) ((s.setManager i _).managers j)
      refine sheds_setManager ?_ j
      exact ⟨fun _ hx => List.mem_append_left _ hx, fun _ _ hreg => hreg⟩
    exact h.continues (KeepsCalls.of_calls rfl) (fun k call hk => ⟨call, hk, .refl _ k call⟩)
      (fun _ _ _ _ => (hsheds _).answers) fun j => (hsheds j).pending
  rcases applyProposal_cases env i s p with heq | ⟨requestId, status, hid, hst, hans, heq⟩
  · rw [heq]
    exact hextended
  · have hnames' : (s.extended env i p).Names index p := hnames
    rw [heq]
    exact hextended.resolve hnames' hid hst hans

end Pynchronize.LockCluster
