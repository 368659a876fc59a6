import Pynchronize.Lib.Records
import Pynchronize.Lock.ManagerStep

/-!
# What a step does to the calls

`Kept` is what every step leaves of a call, and `Returns` lists how a call gets
its status: from its future, its timer, its release or the answer of the leader.
-/

namespace Pynchronize

open Lib

variable {N C R Rid : Type*}

namespace Call

/-- The call is in `propose` or in `wait_for`. -/
def Pending (call : Call N C R Rid) : Prop :=
  call.stage = .waiting ∨ ∃ task, call.stage = .proposing task

def Sending (call : Call N C R Rid) : Prop := ∃ target, call.message = some (target, .inFlight)

theorem Pending.not_returned {call : Call N C R Rid} (h : call.Pending) (status : LockStatus) :
    call.stage ≠ .returned status := by
  rcases h with h | ⟨task, h⟩
  · rw [h]
    exact fun h => by cases h
  · rw [h]
    exact fun h => by cases h

theorem not_returned_of_forwarding {call : Call N C R Rid} (h : call.stage = .forwarding)
    (status : LockStatus) : call.stage ≠ .returned status := by
  rw [h]
  exact fun h => by cases h

/-- What a step leaves of a call. -/
structure Kept (call call' : Call N C R Rid) : Prop where
  args : call'.args = call.args
  message : ¬ call.Sending → call'.message = call.message
  returned : ∀ status, call.stage = .returned status → call'.stage = .returned status
  pending : call'.Pending → call.Pending
  forwarding : call'.stage = .forwarding → call.stage = .forwarding

theorem Kept.refl (call : Call N C R Rid) : Kept call call :=
  ⟨rfl, fun _ => rfl, fun _ h => h, id, id⟩

theorem Kept.trans {call call' call'' : Call N C R Rid} (h : Kept call call')
    (h' : Kept call' call'') : Kept call call'' where
  args := h'.args.trans h.args
  message hs := by
    have hmsg := h.message hs
    rw [← hmsg]
    refine h'.message fun ⟨target, ht⟩ => hs ⟨target, ?_⟩
    rw [← hmsg]
    exact ht
  returned status hs := h'.returned status (h.returned status hs)
  pending hp := h.pending (h'.pending hp)
  forwarding hf := h.forwarding (h'.forwarding hf)

/-- A call that has not returned gets another stage. -/
theorem Kept.stage {call : Call N C R Rid} {stage : CallStage}
    (hnot : ∀ status, call.stage ≠ .returned status)
    (hpending : ({ call with stage := stage } : Call N C R Rid).Pending → call.Pending)
    (hforwarding : stage ≠ .forwarding) : Kept call { call with stage := stage } where
  args := rfl
  message _ := rfl
  returned status h := absurd h (hnot status)
  pending := hpending
  forwarding h := absurd h hforwarding

theorem not_pending_returned (call : Call N C R Rid) (status : LockStatus) :
    ¬ ({ call with stage := .returned status } : Call N C R Rid).Pending := by
  rintro (hw | ⟨task, hw⟩) <;> cases hw

theorem Kept.returns {call : Call N C R Rid} {status : LockStatus}
    (hnot : ∀ status, call.stage ≠ .returned status) :
    Kept call { call with stage := .returned status } :=
  .stage hnot (fun hp => absurd hp (not_pending_returned call status)) fun h => by cases h

/-- A call but for its future. -/
def outline (call : Call N C R Rid) : CallArgs N C R Rid × CallStage × Option (N × Delivery) :=
  (call.args, call.stage, call.message)

theorem Kept.of_outline {call call' : Call N C R Rid} (h : call'.outline = call.outline) :
    Kept call call' where
  args := congrArg (·.1) h
  message _ := congrArg (·.2.2) h
  returned _ hs := (congrArg (·.2.1) h).trans hs
  pending hp := by
    have hstage : call'.stage = call.stage := congrArg (·.2.1) h
    unfold Pending at hp ⊢
    rwa [hstage] at hp
  forwarding hf := (congrArg (·.2.1) h).symm.trans hf

theorem outline_setResult (status : LockStatus) (call : Call N C R Rid) :
    (call.setResult status).outline = call.outline := by
  unfold setResult
  split <;> rfl

/-- A future that is done stays as it is. -/
theorem future_setResult {status result : LockStatus} {call : Call N C R Rid}
    (h : (call.setResult status).future = some result) :
    call.future = some result ∨ result = status := by
  unfold setResult at h
  split at h
  · exact Or.inr (Option.some.inj h).symm
  · exact Or.inl h

theorem kept_setDelivery {call : Call N C R Rid} {target : N} (delivery : Delivery)
    (h : call.message = some (target, .inFlight)) : Kept call (call.setDelivery delivery) :=
  ⟨rfl, fun hs => absurd ⟨target, h⟩ hs, fun _ hr => hr, id, id⟩

theorem kept_crash (call : Call N C R Rid) : Kept call call.crash := by
  unfold crash
  split
  · exact Kept.refl call
  · exact Kept.refl call
  · rename_i hreturned _
    refine .stage hreturned (fun hp => ?_) fun h => by cases h
    rcases hp with hw | ⟨task, hw⟩ <;> cases hw

theorem message_crash (call : Call N C R Rid) : call.crash.message = call.message := by
  unfold crash
  split <;> rfl

theorem not_pending_crash (call : Call N C R Rid) : ¬ call.crash.Pending := by
  unfold crash
  split
  · rename_i h
    rintro (hw | ⟨task, hw⟩)
    · rw [h] at hw
      cases hw
    · rw [h] at hw
      cases hw
  · rename_i h
    rintro (hw | ⟨task, hw⟩)
    · rw [h] at hw
      cases hw
    · rw [h] at hw
      cases hw
  · rintro (hw | ⟨task, hw⟩) <;> cases hw

end Call

namespace LockCluster

/-- Every call goes on. -/
def KeepsCalls (s s' : LockCluster N C R Rid) : Prop :=
  ∀ (k : ℕ) call, s.calls[k]? = some call →
    ∃ call', s'.calls[k]? = some call' ∧ Call.Kept call call'

theorem KeepsCalls.of_calls {s s' : LockCluster N C R Rid} (h : s'.calls = s.calls) :
    KeepsCalls s s' :=
  fun k call hk => ⟨call, by rw [h]; exact hk, Call.Kept.refl call⟩

theorem KeepsCalls.trans {s s' s'' : LockCluster N C R Rid} (h : KeepsCalls s s')
    (h' : KeepsCalls s' s'') : KeepsCalls s s'' := by
  intro k call hk
  obtain ⟨call', hk', hkept⟩ := h k call hk
  obtain ⟨call'', hk'', hkept'⟩ := h' k call' hk'
  exact ⟨call'', hk'', hkept.trans hkept'⟩

theorem KeepsCalls.length_le {s s' : LockCluster N C R Rid} (h : KeepsCalls s s') :
    s.calls.length ≤ s'.calls.length := by
  by_contra hlt
  have hget : s.calls[s'.calls.length]? = some (s.calls.get ⟨s'.calls.length, by omega⟩) :=
    List.getElem?_eq_getElem _
  obtain ⟨call', hk', -⟩ := h _ _ hget
  have := (List.getElem?_eq_some_iff.mp hk').1
  omega

theorem keepsCalls_setCall {s : LockCluster N C R Rid} {k : ℕ} {call call' : Call N C R Rid}
    (hk : s.calls[k]? = some call) (h : Call.Kept call call') :
    KeepsCalls s (s.setCall k call') := by
  intro j other hj
  rcases eq_or_ne k j with rfl | hne
  · obtain rfl := Option.some.inj (hk.symm.trans hj)
    exact ⟨call', getElem?_set_of_some hk _, h⟩
  · exact ⟨other, (List.getElem?_set_ne hne).trans hj, Call.Kept.refl other⟩

theorem setDelivery_eq {s : LockCluster N C R Rid} {k : ℕ} {call : Call N C R Rid}
    (hk : s.calls[k]? = some call) (delivery : Delivery) :
    s.setDelivery k delivery = s.setCall k (call.setDelivery delivery) := by
  have hlt := (List.getElem?_eq_some_iff.mp hk).1
  have hcalls : s.calls.modify k (Call.setDelivery delivery) =
      s.calls.set k (call.setDelivery delivery) := by
    refine List.ext_getElem? fun j => ?_
    rcases eq_or_ne k j with rfl | hne
    · rw [List.getElem?_modify_eq, List.getElem?_set_self hlt, hk]
      rfl
    · rw [List.getElem?_modify_ne _ _ hne, List.getElem?_set_ne hne]
  unfold setDelivery setCall
  rw [hcalls]

theorem keepsCalls_setDelivery {s : LockCluster N C R Rid} {k : ℕ} {call : Call N C R Rid}
    {target : N} (hk : s.calls[k]? = some call) (delivery : Delivery)
    (h : call.message = some (target, .inFlight)) : KeepsCalls s (s.setDelivery k delivery) := by
  rw [setDelivery_eq hk]
  exact keepsCalls_setCall hk (Call.kept_setDelivery delivery h)

theorem keepsCalls_addCall (s : LockCluster N C R Rid) (call : Call N C R Rid) :
    KeepsCalls s (s.addCall call) := by
  intro j other hj
  exact ⟨other, getElem?_append_of_some hj _, Call.Kept.refl other⟩

theorem getElem?_setResults (calls : List (Call N C R Rid)) (which : ℕ → Bool)
    (status : LockStatus) (k : ℕ) :
    (setResults calls which status)[k]? =
      (calls[k]?).map fun call => if which k then call.setResult status else call := by
  unfold setResults
  rw [List.getElem?_mapIdx]

/-- The calls but for their futures. -/
def outlines (s : LockCluster N C R Rid) :
    List (CallArgs N C R Rid × CallStage × Option (N × Delivery)) :=
  s.calls.map Call.outline

theorem exists_outline {s s' : LockCluster N C R Rid} (h : s'.outlines = s.outlines) {k : ℕ}
    {call' : Call N C R Rid} (hk : s'.calls[k]? = some call') :
    ∃ call, s.calls[k]? = some call ∧ call.outline = call'.outline := by
  have hget : (s.calls[k]?).map Call.outline = (s'.calls[k]?).map Call.outline := by
    rw [← List.getElem?_map, ← List.getElem?_map]
    exact congrArg (·[k]?) h.symm
  rw [hk] at hget
  exact Option.map_eq_some_iff.mp hget

theorem KeepsCalls.of_outlines {s s' : LockCluster N C R Rid} (h : s'.outlines = s.outlines) :
    KeepsCalls s s' := by
  intro k call hk
  obtain ⟨call', hk', heq⟩ := exists_outline h.symm hk
  exact ⟨call', hk', Call.Kept.of_outline heq⟩

theorem outlines_setResults {s s' : LockCluster N C R Rid} {which : ℕ → Bool} {status : LockStatus}
    (h : s'.calls = setResults s.calls which status) : s'.outlines = s.outlines := by
  refine List.ext_getElem? fun k => ?_
  unfold outlines
  rw [List.getElem?_map, List.getElem?_map, h, getElem?_setResults, Option.map_map]
  congr 1
  funext call
  dsimp only [Function.comp]
  split
  · exact Call.outline_setResult status call
  · rfl

variable [DecidableEq N] [DecidableEq C] [DecidableEq R] [DecidableEq Rid]
  {cfg : LockConfig N C R Rid}

omit [DecidableEq C] [DecidableEq R] in
theorem outlines_resolve (s : LockCluster N C R Rid) (i : N) (requestId : Rid)
    (status : LockStatus) : (s.resolve i requestId status).outlines = s.outlines := by
  unfold resolve
  dsimp only
  split
  · exact outlines_setResults rfl
  · rfl

/-- Node `i` after `_apply_command` has changed its table and before it pops a future. -/
def extended (env : Env C ℚ) (i : N) (s : LockCluster N C R Rid) (p : Proposal C R Rid) :
    LockCluster N C R Rid :=
  let m := s.managers i
  s.setManager i { m with replica := (m.replica.apply ⟨env.order, ⟨env.now, p.call⟩⟩ p).1 }

/-- `_apply_command` resolves at most the future of its own request id, and with its answer. -/
theorem applyProposal_cases (env : Env C ℚ) (i : N) (s : LockCluster N C R Rid)
    (p : Proposal C R Rid) :
    applyProposal env i s p = s.extended env i p ∨
      ∃ requestId status, p.command.requestId = some requestId ∧
        (status = .acquired ∨ status = .deadlock) ∧
        (p.call, status) ∈ ((s.extended env i p).managers i).replica.answers ∧
        applyProposal env i s p = (s.extended env i p).resolve i requestId status := by
  have hanswer : ∀ status,
      ((s.managers i).replica.apply ⟨env.order, ⟨env.now, p.call⟩⟩ p).2 = some status →
      (p.call, status) ∈ ((s.extended env i p).managers i).replica.answers := by
    intro status hst
    have hm : (s.extended env i p).managers i = { s.managers i with
        replica := ((s.managers i).replica.apply ⟨env.order, ⟨env.now, p.call⟩⟩ p).1 } :=
      Function.update_self ..
    rw [hm]
    simp only [Replica.apply] at hst ⊢
    rw [hst]
    exact List.mem_append_right _ (List.mem_singleton.mpr rfl)
  unfold applyProposal
  dsimp only
  split
  · rename_i requestId hid hst
    exact Or.inr ⟨requestId, .acquired, hid, Or.inl rfl, hanswer _ hst, rfl⟩
  · rename_i requestId hid hst
    exact Or.inr ⟨requestId, .deadlock, hid, Or.inr rfl, hanswer _ hst, rfl⟩
  · exact Or.inl rfl

theorem outlines_applyProposal (env : Env C ℚ) (i : N) (s : LockCluster N C R Rid)
    (p : Proposal C R Rid) : (applyProposal env i s p).outlines = s.outlines := by
  rcases applyProposal_cases env i s p with heq | ⟨requestId, status, -, -, -, heq⟩
  · rw [heq]
    rfl
  · rw [heq, outlines_resolve]
    rfl

omit [DecidableEq C] [DecidableEq R] [DecidableEq Rid] in
theorem outlines_stepDownCallback (i : N) (n n' : RaftNode N (Proposal C R Rid))
    (s : LockCluster N C R Rid) : (s.stepDownCallback i n n').outlines = s.outlines := by
  unfold stepDownCallback
  split
  · exact outlines_setResults rfl
  · rfl

theorem outlines_callbacks (env : Env C ℚ) (i : N) (n n' : RaftNode N (Proposal C R Rid))
    (s : LockCluster N C R Rid) : (s.callbacks env i n n').outlines = s.outlines := by
  have happly : ∀ (ps : List (Proposal C R Rid)) (s : LockCluster N C R Rid),
      (ps.foldl (applyProposal env i) s).outlines = s.outlines := by
    intro ps
    induction ps with
    | nil => exact fun s => rfl
    | cons p ps ih => exact fun s => (ih _).trans (outlines_applyProposal env i s p)
  exact (happly _ _).trans (outlines_stepDownCallback i n n' s)

omit [DecidableEq C] [DecidableEq R] [DecidableEq Rid] in
theorem exists_restart {s : LockCluster N C R Rid} {i : N} {k : ℕ} {call' : Call N C R Rid}
    (hk : (s.restart i).calls[k]? = some call') :
    ∃ call, s.calls[k]? = some call ∧ (call.args.node = i ∧ call' = call.crash ∨
      call.args.node ≠ i ∧ call' = call) := by
  have hk : (s.calls.map _)[k]? = some call' := hk
  rw [List.getElem?_map] at hk
  obtain ⟨call, hcall, rfl⟩ := Option.map_eq_some_iff.mp hk
  refine ⟨call, hcall, ?_⟩
  split
  · rename_i hi
    exact Or.inl ⟨hi, rfl⟩
  · rename_i hi
    exact Or.inr ⟨hi, rfl⟩

omit [DecidableEq C] [DecidableEq R] [DecidableEq Rid] in
theorem keepsCalls_restart (s : LockCluster N C R Rid) (i : N) : KeepsCalls s (s.restart i) := by
  intro k call hk
  refine ⟨if call.args.node = i then call.crash else call, ?_, ?_⟩
  · simp [restart, hk]
  · split
    · exact Call.kept_crash call
    · exact Call.Kept.refl call

omit [DecidableEq C] [DecidableEq R] in
theorem calls_proposing (s : LockCluster N C R Rid) (env : Env C ℚ) (args : CallArgs N C R Rid) :
    (s.proposing env args).calls =
      s.calls ++ [⟨args, .proposing s.raft.tasks.length, none, none⟩] := by
  unfold proposing
  cases args.requestId <;> rfl

/-- A call that starts leaves the others as they are. -/
theorem outline_started {s s' : LockCluster N C R Rid} {env : Env C ℚ} {i : N} {op : LockOp}
    {c : C} {r : R} (h : Started cfg s env i op c r s') {k : ℕ} {call : Call N C R Rid}
    (hk : s.calls[k]? = some call) :
    ∃ call', s'.calls[k]? = some call' ∧ call'.outline = call.outline := by
  have hlt := (List.getElem?_eq_some_iff.mp hk).1
  cases h with
  | @proposes raft =>
    have hk' : (s.proposing env (s.proposalArgs cfg env i op c r)).calls[k]? = some call := by
      rw [calls_proposing, List.getElem?_append_left hlt, hk]
    exact exists_outline (outlines_callbacks env i _ _ { s.proposing env _ with raft := raft }).symm
      hk'
  | forwards => exact ⟨call, (List.getElem?_append_left hlt).trans hk, rfl⟩
  | denied => exact ⟨call, (List.getElem?_append_left hlt).trans hk, rfl⟩

theorem keepsCalls_started {s s' : LockCluster N C R Rid} {env : Env C ℚ} {i : N} {op : LockOp}
    {c : C} {r : R} (h : Started cfg s env i op c r s') : KeepsCalls s s' := by
  intro k call hk
  obtain ⟨call', hk', heq⟩ := outline_started h hk
  exact ⟨call', hk', Call.Kept.of_outline heq⟩

theorem new_started {s s' : LockCluster N C R Rid} {env : Env C ℚ} {i : N} {op : LockOp}
    {c : C} {r : R} (h : Started cfg s env i op c r s') :
    ∃ call, s'.calls[s.calls.length]? = some call ∧ call.args.op = op := by
  cases h with
  | @proposes raft =>
    have hk : (s.proposing env (s.proposalArgs cfg env i op c r)).calls[s.calls.length]? =
        some ⟨s.proposalArgs cfg env i op c r, .proposing s.raft.tasks.length, none, none⟩ := by
      rw [calls_proposing, List.getElem?_concat_length]
    obtain ⟨call, hcall, heq⟩ := exists_outline
      (outlines_callbacks env i _ _ { s.proposing env _ with raft := raft }).symm hk
    exact ⟨call, hcall, congrArg (·.1.op) heq⟩
  | forwards => exact ⟨_, List.getElem?_concat_length, rfl⟩
  | denied => exact ⟨_, List.getElem?_concat_length, rfl⟩

omit [DecidableEq N] [DecidableEq C] [DecidableEq R] [DecidableEq Rid] in
/-- A call that returns, whatever its node does with its request id. -/
theorem keepsCalls_returns {s s' : LockCluster N C R Rid} {k : ℕ} {call : Call N C R Rid}
    {status : LockStatus} (hk : s.calls[k]? = some call)
    (hnot : ∀ status, call.stage ≠ .returned status) (hcalls : s'.calls = s.calls) :
    KeepsCalls s (s'.setStage k call (.returned status)) :=
  (KeepsCalls.of_calls hcalls).trans (keepsCalls_setCall (hcalls ▸ hk) (.returns hnot))

omit [DecidableEq C] [DecidableEq R] in
theorem keepsCalls_finish {s : LockCluster N C R Rid} {k : ℕ} {call : Call N C R Rid}
    {result : LockStatus} (hk : s.calls[k]? = some call) (hp : call.Pending) :
    KeepsCalls s (s.finish k call result) := by
  refine keepsCalls_returns hk hp.not_returned ?_
  cases call.args.requestId <;> rfl

omit [DecidableEq C] [DecidableEq R] in
theorem keepsCalls_timeout {s : LockCluster N C R Rid} {k : ℕ} {call : Call N C R Rid}
    (hk : s.calls[k]? = some call) (hp : call.Pending) : KeepsCalls s (s.timeout k call) := by
  refine keepsCalls_returns hk hp.not_returned ?_
  cases call.args.requestId <;> rfl

omit [DecidableEq C] [DecidableEq R] in
theorem keepsCalls_proposed {s : LockCluster N C R Rid} {k : ℕ} {call : Call N C R Rid}
    (hk : s.calls[k]? = some call) (hp : call.Pending) : KeepsCalls s (s.proposed k call) := by
  unfold proposed
  split
  · exact keepsCalls_returns hk hp.not_returned rfl
  · split
    · exact keepsCalls_finish hk hp
    · exact keepsCalls_setCall hk (.stage hp.not_returned (fun _ => hp) fun h => by cases h)

theorem keepsCalls_step {s s' : LockCluster N C R Rid} {x : Env C ℚ × LockAction N C R Rid}
    (h : s.step cfg x = some s') : KeepsCalls s s' := by
  cases stepped h with
  | raft =>
    exact KeepsCalls.of_outlines (outlines_callbacks _ _ _ _ _)
  | restart =>
    refine KeepsCalls.trans ?_ (keepsCalls_restart _ _)
    exact KeepsCalls.of_calls rfl
  | acquireLock h => exact keepsCalls_started h
  | releaseLock h => exact keepsCalls_started h
  | proposed hk hstage => exact keepsCalls_proposed hk (Or.inr ⟨_, hstage⟩)
  | proposeRaises hk hstage =>
    have hp : Call.Pending _ := Or.inr ⟨_, hstage⟩
    exact keepsCalls_setCall hk (.stage hp.not_returned (fun _ => hp) fun h => by cases h)
  | wake hk hstage => exact keepsCalls_finish hk (Or.inl hstage)
  | timeout hk hstage => exact keepsCalls_timeout hk (Or.inl hstage)
  | deliver hk hmessage hs =>
    obtain ⟨call', hk', heq⟩ := outline_started hs hk
    have hmessage' := (congrArg (·.2.2) heq).trans hmessage
    exact (keepsCalls_started hs).trans (keepsCalls_setDelivery hk' _ hmessage')
  | lose hk hmessage => exact keepsCalls_setDelivery hk _ hmessage
  | response hk hstage => exact keepsCalls_returns hk (Call.not_returned_of_forwarding hstage) rfl
  | noResponse hk hstage => exact keepsCalls_returns hk (Call.not_returned_of_forwarding hstage) rfl

/-! ## How a call returns -/

/-- The ways in which a call that was there before gets its status. -/
inductive Returns (s : LockCluster N C R Rid) (k : ℕ) (call : Call N C R Rid) :
    LockAction N C R Rid → LockStatus → Prop
  | proposed {lockType : LockType} {task : ℕ} {result : LockStatus}
      (hop : call.args.op = .acquire lockType) (hstage : call.stage = .proposing task)
      (hfuture : call.future = some result) : Returns s k call (.proposed k) result
  | released (hop : call.args.op = .release) : Returns s k call (.proposed k) .released
  | wake {result : LockStatus} (hstage : call.stage = .waiting)
      (hfuture : call.future = some result) : Returns s k call (.wake k) result
  | timeout (hstage : call.stage = .waiting) : Returns s k call (.timeout k) .timeout
  | response {target : N} {j : ℕ} {child : Call N C R Rid} {status : LockStatus}
      (hstage : call.stage = .forwarding) (hmessage : call.message = some (target, .handled j))
      (hj : s.calls[j]? = some child) (hchild : child.stage = .returned status) :
      Returns s k call (.response k) status
  | noResponse (hstage : call.stage = .forwarding) : Returns s k call (.noResponse k) .denied

/-- A call that is denied at once proposes nothing and sends nothing. -/
structure DeniedAtOnce (s : LockCluster N C R Rid) (k : ℕ) (call : Call N C R Rid) : Prop where
  index_eq : k = s.calls.length
  args : call.args.index = none
  message : call.message = none
  status : call.stage = .returned .denied

/-- Every status of a call in `s'` was there before, or the call got it in the step. -/
def ReturnedIn (s s' : LockCluster N C R Rid) (a : LockAction N C R Rid) : Prop :=
  ∀ (k : ℕ) call' status, s'.calls[k]? = some call' → call'.stage = .returned status →
    (∃ call, s.calls[k]? = some call ∧
      (call.stage = .returned status ∨ Returns s k call a status)) ∨ DeniedAtOnce s k call'

omit [DecidableEq N] [DecidableEq C] [DecidableEq R] [DecidableEq Rid] in
theorem returned_of_outlines {s s' : LockCluster N C R Rid} (h : s'.outlines = s.outlines) {k : ℕ}
    {call' : Call N C R Rid} {status : LockStatus} (hk : s'.calls[k]? = some call')
    (hr : call'.stage = .returned status) :
    ∃ call, s.calls[k]? = some call ∧ call.stage = .returned status := by
  obtain ⟨call, hcall, heq⟩ := exists_outline h hk
  exact ⟨call, hcall, (congrArg (·.2.1) heq).trans hr⟩

omit [DecidableEq N] [DecidableEq C] [DecidableEq R] [DecidableEq Rid] in
theorem returnedIn_setStage {s s₁ : LockCluster N C R Rid} {a : LockAction N C R Rid} {k : ℕ}
    {call : Call N C R Rid} {stage : CallStage} (hk : s.calls[k]? = some call)
    (hcalls : s₁.calls = s.calls)
    (hstage : ∀ status, stage = .returned status → Returns s k call a status) :
    ReturnedIn s (s₁.setStage k call stage) a := by
  intro j other status hj hr
  rcases getElem?_set_cases hj with ⟨rfl, rfl⟩ | ⟨-, hold⟩
  · exact Or.inl ⟨call, hk, Or.inr (hstage status hr)⟩
  · exact Or.inl ⟨other, hcalls ▸ hold, Or.inl hr⟩

theorem returned_started {s s' : LockCluster N C R Rid} {env : Env C ℚ} {i : N} {op : LockOp}
    {c : C} {r : R} (h : Started cfg s env i op c r s') {k : ℕ} {call' : Call N C R Rid}
    {status : LockStatus} (hk : s'.calls[k]? = some call') (hr : call'.stage = .returned status) :
    (∃ call, s.calls[k]? = some call ∧ call.stage = .returned status) ∨ DeniedAtOnce s k call' := by
  cases h with
  | proposes =>
    obtain ⟨call, hcall, hstage⟩ := returned_of_outlines (outlines_callbacks env i _ _ _) hk hr
    have hcall : (s.proposing env _).calls[k]? = some call := hcall
    rw [calls_proposing] at hcall
    rcases getElem?_concat_cases hcall with hold | ⟨-, rfl⟩
    · exact Or.inl ⟨call, hold, hstage⟩
    · cases hstage
  | forwards =>
    rcases getElem?_concat_cases hk with hold | ⟨-, rfl⟩
    · exact Or.inl ⟨call', hold, hr⟩
    · cases hr
  | denied =>
    rcases getElem?_concat_cases hk with hold | ⟨rfl, rfl⟩
    · exact Or.inl ⟨call', hold, hr⟩
    · exact Or.inr ⟨rfl, rfl, rfl, rfl⟩

/-- A status that a call has after a step is old, or the step returned it. -/
theorem returnedIn_step {s s' : LockCluster N C R Rid} {x : Env C ℚ × LockAction N C R Rid}
    (h : s.step cfg x = some s') : ReturnedIn s s' x.2 := by
  cases stepped h with
  | raft =>
    intro k call' status hk hr
    obtain ⟨call, hcall, hstage⟩ := returned_of_outlines (outlines_callbacks _ _ _ _ _) hk hr
    exact Or.inl ⟨call, hcall, Or.inl hstage⟩
  | restart =>
    intro k call' status hk hr
    obtain ⟨call, hcall, ⟨-, rfl⟩ | ⟨-, rfl⟩⟩ := exists_restart hk
    · refine Or.inl ⟨call, hcall, Or.inl ?_⟩
      unfold Call.crash at hr
      split at hr
      · exact hr
      · exact hr
      · cases hr
    · exact Or.inl ⟨call', hcall, Or.inl hr⟩
  | acquireLock h =>
    intro k call' status hk hr
    exact (returned_started h hk hr).imp_left fun ⟨call, hcall, hs⟩ => ⟨call, hcall, Or.inl hs⟩
  | releaseLock h =>
    intro k call' status hk hr
    exact (returned_started h hk hr).imp_left fun ⟨call, hcall, hs⟩ => ⟨call, hcall, Or.inl hs⟩
  | @proposed env k task call hk hstage =>
    unfold proposed
    split
    · rename_i hop
      exact returnedIn_setStage hk rfl fun status hr => by
        obtain rfl := CallStage.returned.inj hr
        exact .released hop
    · rename_i lockType hop
      split
      · rename_i result hfuture
        refine returnedIn_setStage hk ?_ fun status hr => ?_
        · cases call.args.requestId <;> rfl
        · obtain rfl := CallStage.returned.inj hr
          exact .proposed hop hstage hfuture
      · exact returnedIn_setStage hk rfl fun status hr => by cases hr
  | proposeRaises hk => exact returnedIn_setStage hk rfl fun status hr => by cases hr
  | @wake env k call result hk hstage hfuture =>
    refine returnedIn_setStage hk ?_ fun status hr => ?_
    · cases call.args.requestId <;> rfl
    · obtain rfl := CallStage.returned.inj hr
      exact .wake hstage hfuture
  | @timeout env k call hk hstage =>
    refine returnedIn_setStage hk ?_ fun status hr => ?_
    · cases call.args.requestId <;> rfl
    · obtain rfl := CallStage.returned.inj hr
      exact .timeout hstage
  | @deliver env k call target s' hk hmessage hs =>
    obtain ⟨call', hk', heq⟩ := outline_started hs hk
    intro j other status hj hr
    rw [setDelivery_eq hk'] at hj
    rcases getElem?_set_cases hj with ⟨rfl, rfl⟩ | ⟨-, hold⟩
    · exact Or.inl ⟨call, hk, Or.inl ((congrArg (·.2.1) heq).symm.trans hr)⟩
    · rcases returned_started hs hold hr with ⟨old, hold, hr⟩ | hdenied
      · exact Or.inl ⟨old, hold, Or.inl hr⟩
      · exact Or.inr hdenied
  | @lose env k call target hk hmessage =>
    intro j other status hj hr
    rw [setDelivery_eq hk] at hj
    rcases getElem?_set_cases hj with ⟨rfl, rfl⟩ | ⟨-, hold⟩
    · exact Or.inl ⟨call, hk, Or.inl hr⟩
    · exact Or.inl ⟨other, hold, Or.inl hr⟩
  | response hk hstage hmessage hj hchild =>
    refine returnedIn_setStage hk rfl fun status hr => ?_
    obtain rfl := CallStage.returned.inj hr
    exact .response hstage hmessage hj hchild
  | noResponse hk hstage =>
    refine returnedIn_setStage hk rfl fun status hr => ?_
    obtain rfl := CallStage.returned.inj hr
    exact .noResponse hstage

end LockCluster

end Pynchronize
