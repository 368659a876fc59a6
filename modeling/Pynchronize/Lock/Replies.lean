import Mathlib.Algebra.GroupWithZero.Nat
import Pynchronize.Lock.Requests

/-!
# Replies to queued callers

A request that waits in the queue was answered WAITING, and its call's command
is answered once. `_process_waiting` resolves no future, so the call hears of
the grant only through an answer to the command of another call with the same
request id.
-/

namespace Pynchronize.LockCluster

open Lib

variable {N C R Rid : Type*} [DecidableEq N] [DecidableEq C] [DecidableEq R] [DecidableEq Rid]
  {cfg : LockConfig N C R Rid}

/-! ## What a node applied and answered -/

omit [DecidableEq N] in
/-- No node applies the command of a call twice. -/
theorem Tracked.nodup_applied {s : LockCluster N C R Rid} (h : Tracked cfg s) (i : N) :
    (((s.raft.nodes i).applied.map Prod.snd).map Proposal.call).Nodup := by
  rw [List.map_map]
  refine List.pairwise_map.mpr ((h.inOrder i).increasing.imp_of_mem ?_)
  intro x y hx hy hlt heq
  have heq : x.2.call = y.2.call := heq
  obtain ⟨call, hcall, hindex, -⟩ := h.applied i x hx
  obtain ⟨call', hcall', hindex', -⟩ := h.applied i y hy
  rw [heq, hcall'] at hcall
  obtain rfl := Option.some.inj hcall
  rw [hindex'] at hindex
  have := Option.some.inj hindex
  omega

omit [DecidableEq N] in
theorem Tracked.answers_eq {s : LockCluster N C R Rid} (h : Tracked cfg s) (i : N)
    (order : SetOrder C) : (s.managers i).replica.answers =
      (Replica.replay order ((s.raft.nodes i).applied.map Prod.snd)).answers :=
  congrArg Replica.answers (h.replicas i order)

omit [DecidableEq N] in
theorem Tracked.nodup_answers {s : LockCluster N C R Rid} (h : Tracked cfg s) (i : N) :
    ((s.managers i).replica.answers.map Prod.fst).Nodup := by
  rw [h.answers_eq i default]
  exact (h.nodup_applied i).sublist (Replica.calls_answers_replay default _)

omit [DecidableEq N] in
theorem Tracked.answer_unique {s : LockCluster N C R Rid} (h : Tracked cfg s) {i : N} {k : ℕ}
    {status status' : LockStatus} (ha : (k, status) ∈ (s.managers i).replica.answers)
    (ha' : (k, status') ∈ (s.managers i).replica.answers) : status = status' :=
  congrArg Prod.snd (List.inj_on_of_nodup_map (h.nodup_answers i) ha ha' rfl)

omit [DecidableEq N] in
/-- Whoever was served from a queue was answered WAITING. -/
theorem Tracked.waiting_of_served {s : LockCluster N C R Rid} (h : Tracked cfg s) {i : N}
    {req : LockRequest C R Stamp} (hreq : req ∈ (s.managers i).replica.served) :
    (req.timestamp.call, LockStatus.waiting) ∈ (s.managers i).replica.answers := by
  have hserved := congrArg Replica.served (h.replicas i default)
  have hmem : req.mapStamp Stamp.call ∈
      (Replica.replay default ((s.raft.nodes i).applied.map Prod.snd)).served := by
    rw [← hserved]
    exact List.mem_map_of_mem hreq
  rw [h.answers_eq i default]
  exact (Replica.answered_waiting_replay default _).2 _ hmem

/-- A crash ends the calls of its node. -/
theorem not_pending_of_crash {s s' : LockCluster N C R Rid} {env : Env C ℚ}
    {a : Action N (Proposal C R Rid)} (hstep : s.step cfg (env, .raft a) = some s')
    (hcrash : a.crashFree = false) : ∃ i, s.raft.actor a = some i ∧
      ∀ (k : ℕ) call', s'.calls[k]? = some call' → call'.args.node = i → ¬ call'.Pending := by
  cases stepped hstep with
  | raft _ hfree =>
    rw [hcrash] at hfree
    cases hfree
  | @restart _ _ i raft _ hactor _ =>
    refine ⟨i, hactor, fun k call' hk hnode hp => ?_⟩
    obtain ⟨call, hcall, ⟨-, rfl⟩ | ⟨hne, rfl⟩⟩ := exists_restart hk
    · exact Call.not_pending_crash call hp
    · exact hne hnode

/-- What a node applied stays applied until it crashes, and a crash ends its calls. -/
theorem applied_step {s s' : LockCluster N C R Rid} (h : Tracked cfg s)
    {x : Env C ℚ × LockAction N C R Rid} (hstep : s.step cfg x = some s') (i : N) :
    (s.raft.nodes i).applied <+: (s'.raft.nodes i).applied ∨
      (∃ a, x.2 = .raft a) ∧ ∀ (k : ℕ) call', s'.calls[k]? = some call' → call'.args.node = i →
        ¬ call'.Pending := by
  obtain ⟨env, b⟩ := x
  rcases raft_step hstep with hraft | ⟨a, hraft, hcase⟩
  · exact Or.inl (by rw [hraft])
  · cases hcrash : a.crashFree with
    | true =>
      cases ((Cluster.traced_step h.inPlace hcrash hraft).nodes i).calls with
      | idle hcalls => exact Or.inl (by rw [hcalls])
      | call _ _ hcalls =>
        rw [hcalls]
        exact Or.inl (List.prefix_append _ _)
    | false =>
      rcases hcase with ⟨rfl, -⟩ | ⟨j, p, rfl, -⟩
      · obtain ⟨j, hactor, hnot⟩ := not_pending_of_crash hstep hcrash
        rcases eq_or_ne i j with rfl | hne
        · exact Or.inr ⟨⟨a, rfl⟩, hnot⟩
        · have hother := Cluster.nodes_of_ne_actor hraft
            (by rw [hactor]; exact fun he => hne (Option.some.inj he).symm)
          exact Or.inl (by rw [hother])
      · cases hcrash

theorem answers_step {s s' : LockCluster N C R Rid} (h : Tracked cfg s)
    {x : Env C ℚ × LockAction N C R Rid} (hstep : s.step cfg x = some s') (i : N) :
    (s.managers i).replica.answers <+: (s'.managers i).replica.answers ∨
      (∃ a, x.2 = .raft a) ∧ ∀ (k : ℕ) call', s'.calls[k]? = some call' → call'.args.node = i →
        ¬ call'.Pending := by
  refine (applied_step h hstep i).imp_left fun ⟨rest, hrest⟩ => ?_
  rw [h.answers_eq i default, (h.step hstep).answers_eq i default, ← hrest, List.map_append]
  exact Replica.answers_replay_append default _ _

/-! ## A queued call -/

/-- The requests that `_process_waiting` makes holders on node `i` from `s` to `s'`. -/
def handedOver (s s' : LockCluster N C R Rid) (i : N) : List (LockRequest C R Stamp) :=
  (s'.managers i).replica.served.drop (s.managers i).replica.served.length

/-- Call `k` is an `acquire_lock` on node `i`. -/
def Acquires (s : LockCluster N C R Rid) (i : N) (k : ℕ) (call : Call N C R Rid) : Prop :=
  s.calls[k]? = some call ∧ call.args.node = i ∧ ∃ lockType, call.args.op = .acquire lockType

/-- What a call that was queued can return. -/
def Unanswered (s : LockCluster N C R Rid) (k : ℕ) (status : LockStatus) : Prop :=
  (status = .timeout ∨ status = .denied) ∨
    (s.Collides k ∧ (status = .acquired ∨ status = .deadlock))

/-- The command of call `k` was answered WAITING while the call was pending. -/
structure Unheard (s : LockCluster N C R Rid) (i : N) (k : ℕ) (call : Call N C R Rid) : Prop where
  acquires : s.Acquires i k call
  not_forwarding : call.stage ≠ .forwarding
  waiting : call.Pending → (k, .waiting) ∈ (s.managers i).replica.answers
  returned : ∀ status, call.stage = .returned status → s.Unanswered k status

omit [DecidableEq N] [DecidableEq C] [DecidableEq R] [DecidableEq Rid] in
theorem Unanswered.mono {s s' : LockCluster N C R Rid} {k : ℕ} {status : LockStatus}
    (h : s.Unanswered k status) (hkeep : KeepsCalls s s') : s'.Unanswered k status :=
  h.imp_right fun ⟨hcol, hst⟩ => ⟨hcol.mono hkeep, hst⟩

omit [DecidableEq N] in
/-- A future that is done although the command of its call was answered WAITING. -/
theorem unanswered_of_future {s : LockCluster N C R Rid} (h : Tracked cfg s) {i : N} {k : ℕ}
    {call : Call N C R Rid} {status : LockStatus} (hcall : s.Acquires i k call)
    (hp : call.Pending) (hfuture : call.future = some status)
    (hw : (k, status) ∈ (s.managers i).replica.answers → status = .waiting) :
    s.Unanswered k status := by
  obtain ⟨hk, rfl, -⟩ := hcall
  rcases h.bookkeeping.futures k call status hk hp hfuture with hd | ⟨hst, hans | hcol⟩
  · exact Or.inl (Or.inr hd)
  · rw [hw hans] at hst
    rcases hst with hst | hst <;> cases hst
  · exact Or.inr ⟨hcol, hst⟩

/-- One step of a call that was queued before it, or is served in it. -/
theorem unheard_step {s s' : LockCluster N C R Rid} (h : Tracked cfg s)
    {x : Env C ℚ × LockAction N C R Rid} (hstep : s.step cfg x = some s') {i : N} {k : ℕ}
    {call : Call N C R Rid} (hcall : s.Acquires i k call) (hforwarding : call.stage ≠ .forwarding)
    (hw : call.Pending → (k, .waiting) ∈ (s.managers i).replica.answers ∨
      (k, .waiting) ∈ (s'.managers i).replica.answers)
    (hreturned : ∀ status, call.stage = .returned status → s.Unanswered k status) :
    ∃ call', s'.Unheard i k call' := by
  have hkeep := keepsCalls_step hstep
  obtain ⟨hk, hnode, hop⟩ := hcall
  obtain ⟨call', hk', hkept⟩ := hkeep k call hk
  have hanswers := answers_step h hstep i
  -- a future that is done cannot come from the answer to the queued command
  have hfuture : ∀ status, call.Pending → call.future = some status → (∀ a, x.2 ≠ .raft a) →
      s'.Unanswered k status := by
    intro status hp hf hx
    refine (unanswered_of_future h ⟨hk, hnode, hop⟩ hp hf fun hans => ?_).mono hkeep
    obtain hgrow | ⟨⟨a, ha⟩, -⟩ := hanswers
    · rcases hw hp with hold | hnew
      · exact h.answer_unique hans hold
      · exact (h.step hstep).answer_unique (hgrow.subset hans) hnew
    · exact absurd ha (hx a)
  refine ⟨call', ⟨⟨hk', by rw [hkept.args]; exact hnode, by rw [hkept.args]; exact hop⟩,
    fun hf => hforwarding (hkept.forwarding hf), fun hp => ?_, fun status hr => ?_⟩⟩
  · rcases hanswers with hgrow | ⟨-, hnot⟩
    · exact (hw (hkept.pending hp)).elim (fun hold => hgrow.subset hold) id
    · exact absurd hp (hnot k call' hk' (by rw [hkept.args]; exact hnode))
  · rcases returnedIn_step hstep k call' status hk' hr with ⟨old, hold, hst⟩ | hdenied
    · obtain rfl := Option.some.inj (hk.symm.trans hold)
      rcases hst with hst | hst
      · exact (hreturned status hst).mono hkeep
      · obtain ⟨env, a⟩ := x
        cases hst with
        | proposed _ hstage hf =>
          exact hfuture status (Or.inr ⟨_, hstage⟩) hf fun a ha => by cases ha
        | released hrel =>
          obtain ⟨lockType, hop⟩ := hop
          rw [hop] at hrel
          cases hrel
        | wake hstage hf => exact hfuture status (Or.inl hstage) hf fun a ha => by cases ha
        | timeout => exact Or.inl (Or.inl rfl)
        | response hstage => exact absurd hstage hforwarding
        | noResponse hstage => exact absurd hstage hforwarding
    · have hlt := (List.getElem?_eq_some_iff.mp hk).1
      have := hdenied.index_eq
      omega

theorem unheard_run {s s' : LockCluster N C R Rid} (h : Tracked cfg s)
    {xs : List (Env C ℚ × LockAction N C R Rid)} (hrun : s.run cfg xs = some s') {i : N} {k : ℕ}
    {call : Call N C R Rid} (hq : s.Unheard i k call) : ∃ call', s'.Unheard i k call' := by
  induction xs generalizing s call with
  | nil => exact ⟨call, Option.some.inj hrun ▸ hq⟩
  | cons x rest ih =>
    obtain ⟨t, ht, hrest⟩ := Transition.run_cons hrun
    obtain ⟨call', hq'⟩ := unheard_step h ht hq.acquires hq.not_forwarding
      (fun hp => Or.inl (hq.waiting hp)) hq.returned
    exact ih (h.step ht) hrest hq'

/-- A call whose request is served from the queue before the call has ended never returns
    ACQUIRED, unless another call has its request id. -/
theorem queued_grant_unanswered {start : N → ℚ}
    {before after : List (Env C ℚ × LockAction N C R Rid)} {x : Env C ℚ × LockAction N C R Rid}
    {s s' u : LockCluster N C R Rid} (hs : (boot start).run cfg before = some s)
    (hstep : s.step cfg x = some s') (hu : s'.run cfg after = some u) {i : N} {k : ℕ}
    {call call' : Call N C R Rid} (hcall : s.Acquires i k call) (hpending : call.Pending)
    (hserved : ∃ req ∈ handedOver s s' i, req.timestamp.call = k) (hk : u.calls[k]? = some call')
    {status : LockStatus} (hreturned : call'.stage = .returned status) :
    (status = .timeout ∨ status = .denied) ∨
      (u.Collides k ∧ (status = .acquired ∨ status = .deadlock)) := by
  have h := (tracked_boot cfg start).run hs
  obtain ⟨req, hreq, rfl⟩ := hserved
  have hwaiting := (h.step hstep).waiting_of_served (List.mem_of_mem_drop hreq)
  have hforwarding : call.stage ≠ .forwarding := by
    rcases hpending with hw | ⟨task, hw⟩
    · rw [hw]
      exact fun h => by cases h
    · rw [hw]
      exact fun h => by cases h
  obtain ⟨called, hq⟩ := unheard_step h hstep hcall hforwarding (fun _ => Or.inr hwaiting)
    fun status hr => absurd hr (hpending.not_returned status)
  obtain ⟨final, hq'⟩ := unheard_run (h.step hstep) hu hq
  obtain rfl := Option.some.inj (hk.symm.trans hq'.acquires.1)
  exact hq'.returned status hreturned

/-! ## Concrete runs -/

/-- The only node is written 0. -/
scoped instance neZero_one : NeZero 1 := ⟨by decide⟩

/-- The clients and resources are written 0 and 1. -/
scoped instance neZero_two : NeZero 2 := ⟨by decide⟩

abbrev RequestId := Fin 2 × Fin 2 × ℚ

/-- One node; a request id is the client, the resource and the clock reading. -/
def oneNode : LockConfig (Fin 1) (Fin 2) (Fin 2) RequestId :=
  { nodes := [0], nodup := by decide, requestId := fun c r now => (c, r, now) }

/-- Some actions of node 0 at one clock reading. -/
def during (now : ℚ) (acts : List (LockAction (Fin 1) (Fin 2) (Fin 2) RequestId)) :
    List (Env (Fin 2) ℚ × LockAction (Fin 1) (Fin 2) (Fin 2) RequestId) :=
  acts.map fun a => (⟨(LockTable.finEnv 2).order, now⟩, a)

/-- `propose` returns to call `k`. -/
def proposeReturns (task k : ℕ) : List (LockAction (Fin 1) (Fin 2) (Fin 2) RequestId) :=
  [.raft (.resume task), .proposed k]

def electionOfNode : List (LockAction (Fin 1) (Fin 2) (Fin 2) RequestId) :=
  [.raft (.electionTimeout 0 (1 / 5) 1), .raft (.electionEnds 0 []), .raft (.becameLeader 0)]

/-- Client 0 holds resource 0 and client 1 is queued behind it. -/
def queuedBehind : List (Env (Fin 2) ℚ × LockAction (Fin 1) (Fin 2) (Fin 2) RequestId) :=
  during 1 electionOfNode ++
    (during 2 (.acquireLock 0 0 0 .exclusive :: proposeReturns 1 0) ++
      during 3 (.acquireLock 0 1 0 .exclusive :: proposeReturns 2 1))

/-- The release of client 0 serves client 1, whose call waits on until its timer fires. -/
theorem served_then_timeout :
    ∃ (s s' u : LockCluster (Fin 1) (Fin 2) (Fin 2) RequestId) (call call' : Call _ _ _ _),
      (boot fun _ => 0).run oneNode queuedBehind = some s ∧
      s.step oneNode (⟨(LockTable.finEnv 2).order, 4⟩, .releaseLock 0 0 0) = some s' ∧
      s'.run oneNode (during 5 [.timeout 1]) = some u ∧ s.Acquires 0 1 call ∧ call.Pending ∧
      (∃ req ∈ handedOver s s' 0, req.timestamp.call = 1) ∧ u.calls[1]? = some call' ∧
      call'.stage = .returned .timeout := by
  have hrun : ((boot fun _ => 0).run oneNode queuedBehind).any (fun s =>
      (s.calls[1]?).any (fun call => decide (call.stage = .waiting) &&
          decide (call.args = ⟨0, .acquire .exclusive, 1, 0, some (1, 0, 3), some 2⟩)) &&
        (s.step oneNode (⟨(LockTable.finEnv 2).order, 4⟩, .releaseLock 0 0 0)).any fun s' =>
          ((handedOver s s' 0).any fun req => decide (req.timestamp.call = 1)) &&
            (s'.run oneNode (during 5 [.timeout 1])).any fun u =>
              (u.calls[1]?).any fun call => decide (call.stage = .returned .timeout)) = true := by
    decide +kernel
  obtain ⟨s, hs, hrest⟩ := (Option.any_eq_true _ _).mp hrun
  obtain ⟨hcalls, hrest⟩ := Bool.and_eq_true_iff.mp hrest
  obtain ⟨call, hk, hcall⟩ := (Option.any_eq_true _ _).mp hcalls
  obtain ⟨hstage, hargs⟩ := Bool.and_eq_true_iff.mp hcall
  obtain ⟨s', hs', hrest⟩ := (Option.any_eq_true _ _).mp hrest
  obtain ⟨hserved, hrest⟩ := Bool.and_eq_true_iff.mp hrest
  obtain ⟨u, hu, hrest⟩ := (Option.any_eq_true _ _).mp hrest
  obtain ⟨call', hk', hstage'⟩ := (Option.any_eq_true _ _).mp hrest
  obtain ⟨req, hreq, heq⟩ := List.any_eq_true.mp hserved
  have hargs := of_decide_eq_true hargs
  exact ⟨s, s', u, call, call', hs, hs', hu, ⟨hk, by rw [hargs], .exclusive, by rw [hargs]⟩,
    Or.inl (of_decide_eq_true hstage), ⟨req, hreq, of_decide_eq_true heq⟩, hk',
    of_decide_eq_true hstage'⟩

theorem queued_grant_unanswered_timeout :
    ∃ (s s' u : LockCluster (Fin 1) (Fin 2) (Fin 2) RequestId) (call' : Call _ _ _ _),
      (∃ req ∈ handedOver s s' 0, req.timestamp.call = 1) ∧ u.calls[1]? = some call' ∧
      call'.stage = .returned .timeout ∧ u.Unanswered 1 .timeout := by
  obtain ⟨s, s', u, call, call', hs, hs', hu, hcall, hp, hserved, hk, hr⟩ := served_then_timeout
  exact ⟨s, s', u, call', hserved, hk, hr,
    queued_grant_unanswered hs hs' hu hcall hp hserved hk hr⟩

/-- The caller of a request served from the queue is told TIMEOUT. -/
theorem queued_grant_times_out :
    ¬ ∀ (before after : List (Env (Fin 2) ℚ × LockAction (Fin 1) (Fin 2) (Fin 2) RequestId))
      (x : Env (Fin 2) ℚ × LockAction (Fin 1) (Fin 2) (Fin 2) RequestId)
      (s s' u : LockCluster (Fin 1) (Fin 2) (Fin 2) RequestId) (k : ℕ) (call call' : Call _ _ _ _)
      (status : LockStatus), (boot fun _ => 0).run oneNode before = some s →
      s.step oneNode x = some s' → s'.run oneNode after = some u → s.Acquires 0 k call →
      call.Pending → (∃ req ∈ handedOver s s' 0, req.timestamp.call = k) →
      u.calls[k]? = some call' → call'.stage = .returned status → status = .acquired := by
  intro hclaim
  obtain ⟨s, s', u, call, call', hs, hs', hu, hcall, hp, hserved, hk, hr⟩ := served_then_timeout
  have := hclaim _ _ _ s s' u 1 call call' .timeout hs hs' hu hcall hp hserved hk hr
  cases this

end Pynchronize.LockCluster
