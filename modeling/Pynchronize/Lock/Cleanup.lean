import Pynchronize.Lock.Refusals

/-!
# What an acquire_lock call leaves registered

A call enters its future in `pending_requests` and its timer in the metrics
before it proposes. Whoever resolves the future pops it; the timer is stopped
by the call itself, on the way that ends with a result of the future and on no
other.
-/

namespace Pynchronize

open Lib

variable {N C R Rid : Type*}

def Call.Ended (call : Call N C R Rid) : Prop :=
  call.stage = .raised ∨ ∃ status, call.stage = .returned status

namespace LockCluster

/-- No two calls of one node have the same request id. -/
def NodeIds (s : LockCluster N C R Rid) : Prop :=
  ∀ (k k' : ℕ) (call call' : Call N C R Rid) (requestId : Rid), s.calls[k]? = some call →
    s.calls[k']? = some call' → call.args.node = call'.args.node →
    call.args.requestId = some requestId → call'.args.requestId = some requestId → k = k'

theorem NodeIds.of_keeps {s s' : LockCluster N C R Rid} (h : s'.NodeIds) (hkeep : KeepsCalls s s') :
    s.NodeIds := by
  intro k k' call call' requestId hk hk' hnode hid hid'
  obtain ⟨later, hlater, hkept⟩ := hkeep k call hk
  obtain ⟨later', hlater', hkept'⟩ := hkeep k' call' hk'
  exact h k k' later later' requestId hlater hlater' (by rw [hkept.args, hkept'.args]; exact hnode)
    (by rw [hkept.args]; exact hid) (by rw [hkept'.args]; exact hid')

theorem DistinctIds.nodeIds {s : LockCluster N C R Rid} (h : s.DistinctIds) : s.NodeIds := by
  intro k k' call call' requestId hk hk' _ hid hid'
  by_contra hne
  exact h.not_collides k ⟨k', call, call', requestId, fun heq => hne heq.symm, hk, hk', hid, hid'⟩

variable [DecidableEq Rid]

/-- Neither table of node `i` has an entry for the request id. -/
def Clean (s : LockCluster N C R Rid) (i : N) (requestId : Rid) : Prop :=
  (s.managers i).pendingRequests.get? requestId = none ∧
    (s.managers i).timers.get? requestId = none

/-- No call that has ended has an entry for its request id. -/
def CleanedUp (s : LockCluster N C R Rid) : Prop :=
  ∀ (k : ℕ) (call : Call N C R Rid) (requestId : Rid), s.calls[k]? = some call → call.Ended →
    call.args.requestId = some requestId → s.Clean call.args.node requestId

/-- What is registered for the calls that have not ended. -/
structure Booked (s : LockCluster N C R Rid) : Prop where
  registered : ∀ i requestId k, (s.managers i).pendingRequests.get? requestId = some k →
    ∃ call, s.calls[k]? = some call ∧ call.args.node = i ∧ call.args.requestId = some requestId
  timed : ∀ (k : ℕ) call requestId, s.calls[k]? = some call → call.Pending →
    call.args.requestId = some requestId →
    (s.managers call.args.node).timers.get? requestId ≠ none
  resolved : ∀ (k : ℕ) call requestId, s.calls[k]? = some call → call.Pending →
    call.args.requestId = some requestId → call.future ≠ none →
    (s.managers call.args.node).pendingRequests.get? requestId = none

/-! ## Calls that go on -/

theorem Booked.continues {s s' : LockCluster N C R Rid} (h : s.Booked) (hkeep : KeepsCalls s s')
    (hpending : ∀ i requestId k, (s'.managers i).pendingRequests.get? requestId = some k →
      (s.managers i).pendingRequests.get? requestId = some k)
    (hcalls : ∀ (k : ℕ) call', s'.calls[k]? = some call' → ∃ call, s.calls[k]? = some call ∧
      call'.args = call.args ∧ (call'.Pending → call.Pending ∧
        ∀ requestId, call.args.requestId = some requestId →
          (s'.managers call.args.node).timers.get? requestId =
              (s.managers call.args.node).timers.get? requestId ∧
            (call'.future = call.future ∨
              (s'.managers call.args.node).pendingRequests.get? requestId = none))) :
    s'.Booked where
  registered i requestId k hreg := by
    obtain ⟨call, hcall, hnode, hid⟩ := h.registered i requestId k (hpending i requestId k hreg)
    obtain ⟨call', hcall', hkept⟩ := hkeep k call hcall
    exact ⟨call', hcall', by rw [hkept.args]; exact hnode, by rw [hkept.args]; exact hid⟩
  timed k call' requestId hk hp hid := by
    obtain ⟨call, hcall, hargs, hrest⟩ := hcalls k call' hk
    obtain ⟨hp, hentries⟩ := hrest hp
    rw [hargs] at hid ⊢
    rw [(hentries requestId hid).1]
    exact h.timed k call requestId hcall hp hid
  resolved k call' requestId hk hp hid hf := by
    obtain ⟨call, hcall, hargs, hrest⟩ := hcalls k call' hk
    obtain ⟨hp, hentries⟩ := hrest hp
    rw [hargs] at hid ⊢
    rcases (hentries requestId hid).2 with hsame | hnone
    · rw [hsame] at hf
      have hnone := h.resolved k call requestId hcall hp hid hf
      refine Option.eq_none_iff_forall_ne_some.mpr fun j hj => ?_
      rw [hpending _ _ _ hj] at hnone
      cases hnone
    · exact hnone

theorem CleanedUp.continues {s s' : LockCluster N C R Rid} (h : s.CleanedUp)
    (hclean : ∀ i requestId, s.Clean i requestId → s'.Clean i requestId)
    (hcalls : ∀ (k : ℕ) call' requestId, s'.calls[k]? = some call' → call'.Ended →
      call'.args.requestId = some requestId →
      (∃ call, s.calls[k]? = some call ∧ call.Ended ∧ call.args = call'.args) ∨
        s'.Clean call'.args.node requestId) : s'.CleanedUp := by
  intro k call' requestId hk hended hid
  rcases hcalls k call' requestId hk hended hid with ⟨call, hcall, hold, hargs⟩ | hdone
  · rw [← hargs] at hid ⊢
    exact hclean _ _ (h k call requestId hcall hold hid)
  · exact hdone

/-! ## The callbacks -/

/-- Some futures are resolved and popped, and nothing else changes. -/
structure Settles (s s' : LockCluster N C R Rid) : Prop where
  outlines : s'.outlines = s.outlines
  timers : ∀ i, (s'.managers i).timers = (s.managers i).timers
  pending : ∀ i requestId k, (s'.managers i).pendingRequests.get? requestId = some k →
    (s.managers i).pendingRequests.get? requestId = some k
  futures : ∀ (k : ℕ) call call', s.calls[k]? = some call → s'.calls[k]? = some call' →
    call'.future = call.future ∨ ∃ i requestId,
      (s.managers i).pendingRequests.get? requestId = some k ∧
        (s'.managers i).pendingRequests.get? requestId = none

theorem Settles.refl (s : LockCluster N C R Rid) : Settles s s :=
  ⟨rfl, fun _ => rfl, fun _ _ _ h => h, fun k call call' hk hk' =>
    Or.inl (by rw [Option.some.inj (hk.symm.trans hk')])⟩

theorem Settles.trans {s s' s'' : LockCluster N C R Rid} (h : Settles s s')
    (h' : Settles s' s'') : Settles s s'' where
  outlines := h'.outlines.trans h.outlines
  timers i := (h'.timers i).trans (h.timers i)
  pending i requestId k hreg := h.pending i requestId k (h'.pending i requestId k hreg)
  futures k call call'' hk hk'' := by
    obtain ⟨call', hk', heq⟩ := exists_outline h'.outlines hk''
    rcases h'.futures k call' call'' hk' hk'' with hsame | ⟨i, requestId, hreg, hnone⟩
    · rcases h.futures k call call' hk hk' with hold | ⟨i, requestId, hreg, hnone⟩
      · exact Or.inl (hsame.trans hold)
      · refine Or.inr ⟨i, requestId, hreg, Option.eq_none_iff_forall_ne_some.mpr fun j hj => ?_⟩
        have := h'.pending _ _ _ hj
        rw [hnone] at this
        cases this
    · exact Or.inr ⟨i, requestId, h.pending i requestId k hreg, hnone⟩

theorem Settles.clean {s s' : LockCluster N C R Rid} (h : Settles s s') {i : N} {requestId : Rid}
    (hc : s.Clean i requestId) : s'.Clean i requestId := by
  refine ⟨Option.eq_none_iff_forall_ne_some.mpr fun k hk => ?_, ?_⟩
  · have := h.pending i requestId k hk
    rw [hc.1] at this
    cases this
  · rw [h.timers]
    exact hc.2

theorem Settles.booked {s s' : LockCluster N C R Rid} (h : Settles s s') (hb : s.Booked) :
    s'.Booked := by
  refine hb.continues (KeepsCalls.of_outlines h.outlines) h.pending fun k call' hk => ?_
  obtain ⟨call, hcall, heq⟩ := exists_outline h.outlines hk
  have hstage : call'.stage = call.stage := (congrArg (·.2.1) heq).symm
  refine ⟨call, hcall, (congrArg (·.1) heq).symm, fun hp => ⟨?_, fun requestId hid => ⟨?_, ?_⟩⟩⟩
  · unfold Call.Pending at hp ⊢
    rwa [hstage] at hp
  · rw [h.timers]
  · refine (h.futures k call call' hcall hk).imp_right fun ⟨i, own, hreg, hnone⟩ => ?_
    obtain ⟨owner, howner, hnode, hown⟩ := hb.registered i own k hreg
    obtain rfl := Option.some.inj (hcall.symm.trans howner)
    obtain rfl := Option.some.inj (hid.symm.trans hown)
    rwa [hnode]

theorem Settles.cleanedUp {s s' : LockCluster N C R Rid} (h : Settles s s') (hs : s.CleanedUp) :
    s'.CleanedUp := by
  refine hs.continues (fun _ _ => h.clean) fun k call' requestId hk hended _ => Or.inl ?_
  obtain ⟨call, hcall, heq⟩ := exists_outline h.outlines hk
  have hstage : call.stage = call'.stage := congrArg (·.2.1) heq
  refine ⟨call, hcall, ?_, congrArg (·.1) heq⟩
  unfold Call.Ended at hended ⊢
  rwa [hstage]

variable [DecidableEq N]

/-- One node pops futures; no timer is touched. -/
theorem settles_setManager {s s' : LockCluster N C R Rid} {i : N} {m : LockManager C R Rid}
    (hmanagers : s'.managers = (s.setManager i m).managers) (houtlines : s'.outlines = s.outlines)
    (htimers : m.timers = (s.managers i).timers)
    (hpending : ∀ requestId k, m.pendingRequests.get? requestId = some k →
      (s.managers i).pendingRequests.get? requestId = some k)
    (hfutures : ∀ (k : ℕ) call call', s.calls[k]? = some call → s'.calls[k]? = some call' →
      call'.future = call.future ∨ ∃ requestId,
        (s.managers i).pendingRequests.get? requestId = some k ∧
          m.pendingRequests.get? requestId = none) : Settles s s' where
  outlines := houtlines
  timers j := by
    rw [hmanagers]
    rcases eq_or_ne j i with rfl | hne
    · rw [managers_setManager_self, htimers]
    · rw [managers_setManager_of_ne s hne]
  pending j requestId k hreg := by
    rw [hmanagers] at hreg
    rcases eq_or_ne j i with rfl | hne
    · rw [managers_setManager_self] at hreg
      exact hpending requestId k hreg
    · rwa [managers_setManager_of_ne s hne] at hreg
  futures k call call' hk hk' := by
    refine (hfutures k call call' hk hk').imp_right fun ⟨requestId, hreg, hnone⟩ => ?_
    refine ⟨i, requestId, hreg, ?_⟩
    rw [hmanagers, managers_setManager_self]
    exact hnone

theorem settles_resolve (s : LockCluster N C R Rid) (i : N) (requestId : Rid)
    (status : LockStatus) : Settles s (s.resolve i requestId status) := by
  unfold resolve
  dsimp only
  split
  · rename_i k hreg
    refine settles_setManager rfl (outlines_setResults rfl) rfl (fun other j hj => ?_)
      fun j call call' hj hj' => ?_
    · rw [Dict.get?_erase] at hj
      split at hj
      · cases hj
      · exact hj
    · have hj' : (setResults s.calls _ status)[j]? = some call' := hj'
      rw [getElem?_setResults, hj] at hj'
      obtain rfl := Option.some.inj hj'
      dsimp only
      split
      · rename_i heq
        obtain rfl : j = k := by simpa using heq
        exact Or.inr ⟨requestId, hreg, Dict.get?_erase_self _ _⟩
      · exact Or.inl rfl
  · exact .refl s

theorem settles_onLoseLeadership (s : LockCluster N C R Rid) (i : N) :
    Settles s (s.onLoseLeadership i) := by
  refine settles_setManager rfl (outlines_setResults rfl) rfl (fun _ _ hj => by cases hj)
    fun k call call' hk hk' => ?_
  have hk' : (setResults s.calls _ .denied)[k]? = some call' := hk'
  rw [getElem?_setResults, hk] at hk'
  obtain rfl := Option.some.inj hk'
  dsimp only
  split
  · rename_i hmem
    obtain ⟨⟨requestId, j⟩, hitem, heq⟩ := List.mem_map.mp (of_decide_eq_true hmem)
    obtain rfl : j = k := heq
    exact Or.inr ⟨requestId, (Dict.mem_items_iff _ requestId j).mp hitem, rfl⟩
  · exact Or.inl rfl

variable [DecidableEq C] [DecidableEq R]

theorem settles_applyProposal (env : Env C ℚ) (i : N) (s : LockCluster N C R Rid)
    (p : Proposal C R Rid) : Settles s (applyProposal env i s p) := by
  have hextended : Settles s (s.extended env i p) :=
    settles_setManager rfl rfl rfl (fun _ _ h => h) fun k call call' hk hk' =>
      Or.inl (by rw [Option.some.inj (hk.symm.trans hk')])
  rcases applyProposal_cases env i s p with heq | ⟨requestId, status, -, -, -, heq⟩
  · rw [heq]
    exact hextended
  · rw [heq]
    exact hextended.trans (settles_resolve _ i requestId status)

theorem settles_callbacks (env : Env C ℚ) (i : N) (n n' : RaftNode N (Proposal C R Rid))
    (s : LockCluster N C R Rid) : Settles s (s.callbacks env i n n') := by
  have happly : ∀ (ps : List (Proposal C R Rid)) (s : LockCluster N C R Rid),
      Settles s (ps.foldl (applyProposal env i) s) := by
    intro ps
    induction ps with
    | nil => exact fun s => .refl s
    | cons p ps ih => exact fun s => (settles_applyProposal env i s p).trans (ih _)
  have hdown : Settles s (s.stepDownCallback i n n') := by
    unfold stepDownCallback
    split
    · exact settles_onLoseLeadership s i
    · exact .refl s
  exact hdown.trans (happly _ _)

omit [DecidableEq N] [DecidableEq C] [DecidableEq R] in
theorem Booked.withRaft {s : LockCluster N C R Rid} (h : s.Booked)
    (raft : Cluster N (Proposal C R Rid)) : Booked { s with raft := raft } :=
  ⟨h.registered, h.timed, h.resolved⟩

/-! ## Crashes -/

omit [DecidableEq C] [DecidableEq R] in
theorem booked_restart {s : LockCluster N C R Rid} (h : s.Booked) (i : N) :
    (s.restart i).Booked := by
  have hself : (s.restart i).managers i = LockManager.init := managers_setManager_self s i _
  have hother : ∀ j, j ≠ i → (s.restart i).managers j = s.managers j :=
    fun j hne => managers_setManager_of_ne s hne _
  refine h.continues (keepsCalls_restart s i) (fun j requestId k hreg => ?_) fun k call' hk => ?_
  · rcases eq_or_ne j i with rfl | hne
    · rw [hself] at hreg
      cases hreg
    · rwa [hother j hne] at hreg
  · obtain ⟨call, hcall, ⟨-, rfl⟩ | ⟨hne, rfl⟩⟩ := exists_restart hk
    · exact ⟨call, hcall, (Call.kept_crash call).args,
        fun hp => absurd hp (Call.not_pending_crash call)⟩
    · exact ⟨call', hcall, rfl, fun hp => ⟨hp, fun requestId _ =>
        ⟨by rw [hother _ hne], Or.inl rfl⟩⟩⟩

omit [DecidableEq C] [DecidableEq R] in
theorem cleanedUp_restart {s : LockCluster N C R Rid} (h : s.CleanedUp) (i : N) :
    (s.restart i).CleanedUp := by
  refine h.continues (fun j requestId hc => ?_) fun k call' requestId hk hended hid => Or.inl ?_
  · unfold Clean
    rcases eq_or_ne j i with rfl | hne
    · rw [show (s.restart j).managers j = LockManager.init from managers_setManager_self s j _]
      exact ⟨rfl, rfl⟩
    · rw [show (s.restart i).managers j = s.managers j from managers_setManager_of_ne s hne _]
      exact hc
  · obtain ⟨call, hcall, ⟨-, rfl⟩ | ⟨-, rfl⟩⟩ := exists_restart hk
    · refine ⟨call, hcall, ?_, (Call.kept_crash call).args.symm⟩
      unfold Call.Ended Call.crash at hended
      split at hended
      · rename_i hstage
        exact Or.inr ⟨_, hstage⟩
      · rename_i hstage
        exact Or.inl hstage
      · rcases hended with hw | ⟨status, hw⟩ <;> cases hw
    · exact ⟨call', hcall, hended, rfl⟩

/-! ## Calls that end -/

/-- The tables of a node but for the entries of at most one request id. -/
structure LockManager.Drops (own : Option Rid) (m m' : LockManager C R Rid) : Prop where
  pending : ∀ requestId, m'.pendingRequests.get? requestId = m.pendingRequests.get? requestId ∨
    own = some requestId ∧ m'.pendingRequests.get? requestId = none
  timers : ∀ requestId, m'.timers.get? requestId = m.timers.get? requestId ∨
    own = some requestId ∧ m'.timers.get? requestId = none

omit [DecidableEq N] [DecidableEq C] [DecidableEq R] in
theorem LockManager.Drops.refl (own : Option Rid) (m : LockManager C R Rid) :
    LockManager.Drops own m m := ⟨fun _ => Or.inl rfl, fun _ => Or.inl rfl⟩

omit [DecidableEq N] [DecidableEq C] [DecidableEq R] in
/-- Erasing a call's id, if it has one, leaves the entries of all other ids. -/
theorem get?_elim_erase {V : Type*} (own : Option Rid) (d : Dict Rid V) (requestId : Rid) :
    (own.elim d d.erase).get? requestId = d.get? requestId ∨
      own = some requestId ∧ (own.elim d d.erase).get? requestId = none := by
  cases own with
  | none => exact Or.inl rfl
  | some own =>
    rcases eq_or_ne requestId own with rfl | hne
    · exact Or.inr ⟨rfl, d.get?_erase_self requestId⟩
    · exact Or.inl (d.get?_erase_ne hne)

omit [DecidableEq N] [DecidableEq C] [DecidableEq R] in
theorem get?_elim_erase_own {V : Type*} {own : Option Rid} (d : Dict Rid V) (requestId : Rid)
    (h : own = some requestId) : (own.elim d d.erase).get? requestId = none := by
  rw [h]
  exact d.get?_erase_self requestId

omit [DecidableEq C] [DecidableEq R] in
/-- `stop_timer` is all that `finish` does to the tables. -/
theorem finish_drops (s : LockCluster N C R Rid) (k : ℕ) (call : Call N C R Rid)
    (result : LockStatus) :
    ∃ m, LockManager.Drops call.args.requestId (s.managers call.args.node) m ∧
      m.pendingRequests = (s.managers call.args.node).pendingRequests ∧
      (∀ requestId, call.args.requestId = some requestId → m.timers.get? requestId = none) ∧
      s.finish k call result =
        (s.setManager call.args.node m).setStage k call (.returned result) := by
  let m := s.managers call.args.node
  refine ⟨{ m with timers := call.args.requestId.elim m.timers m.timers.erase },
    ⟨fun _ => Or.inl rfl, get?_elim_erase _ m.timers⟩, rfl, get?_elim_erase_own m.timers, ?_⟩
  unfold finish
  cases call.args.requestId with
  | none =>
    show s.setStage k call _ = (s.setManager call.args.node m).setStage k call _
    rw [setManager_self]
  | some own => rfl

omit [DecidableEq C] [DecidableEq R] in
/-- The TIMEOUT handler pops the future and stops no timer. -/
theorem timeout_drops (s : LockCluster N C R Rid) (k : ℕ) (call : Call N C R Rid) :
    ∃ m, LockManager.Drops call.args.requestId (s.managers call.args.node) m ∧
      m.timers = (s.managers call.args.node).timers ∧
      (∀ requestId, call.args.requestId = some requestId →
        m.pendingRequests.get? requestId = none) ∧
      s.timeout k call = (s.setManager call.args.node m).setStage k call (.returned .timeout) := by
  let m := s.managers call.args.node
  refine ⟨{ m with
      pendingRequests := call.args.requestId.elim m.pendingRequests m.pendingRequests.erase },
    ⟨get?_elim_erase _ m.pendingRequests, fun _ => Or.inl rfl⟩, rfl,
    get?_elim_erase_own m.pendingRequests, ?_⟩
  unfold timeout
  cases call.args.requestId with
  | none =>
    show s.setStage k call _ = (s.setManager call.args.node m).setStage k call _
    rw [setManager_self]
  | some own => rfl

omit [DecidableEq C] [DecidableEq R] in
theorem cleanedUp_ends {s : LockCluster N C R Rid} (h : s.CleanedUp) {k : ℕ}
    {call : Call N C R Rid} (hk : s.calls[k]? = some call) {m : LockManager C R Rid}
    (hm : LockManager.Drops call.args.requestId (s.managers call.args.node) m) {stage : CallStage}
    (hended : ({ call with stage := stage } : Call N C R Rid).Ended) :
    ((s.setManager call.args.node m).setStage k call stage).CleanedUp ↔
      ∀ requestId, call.args.requestId = some requestId →
        m.pendingRequests.get? requestId = none ∧ m.timers.get? requestId = none := by
  have hself : ((s.setManager call.args.node m).setStage k call stage).managers call.args.node =
      m := managers_setManager_self s _ m
  constructor
  · intro hs' requestId hid
    have := hs' k _ requestId (getElem?_set_of_some hk _) hended hid
    unfold Clean at this
    rwa [hself] at this
  · intro hdone
    refine h.continues (fun j requestId hc => ?_) fun j call' requestId hj hended' hid => ?_
    · unfold Clean
      rcases eq_or_ne j call.args.node with rfl | hne
      · rw [hself]
        constructor
        · rcases hm.pending requestId with hsame | ⟨-, hnone⟩
          · exact hsame.trans hc.1
          · exact hnone
        · rcases hm.timers requestId with hsame | ⟨-, hnone⟩
          · exact hsame.trans hc.2
          · exact hnone
      · rw [show ((s.setManager call.args.node m).setStage k call stage).managers j =
          s.managers j from managers_setManager_of_ne s hne m]
        exact hc
    · rcases getElem?_set_cases hj with ⟨rfl, rfl⟩ | ⟨-, hold⟩
      · refine Or.inr ?_
        unfold Clean
        rw [hself]
        exact hdone requestId hid
      · exact Or.inl ⟨call', hold, hended', rfl⟩

omit [DecidableEq C] [DecidableEq R] in
theorem booked_ends {s : LockCluster N C R Rid} (h : s.Booked) (hids : s.NodeIds) {k : ℕ}
    {call : Call N C R Rid} (hk : s.calls[k]? = some call) {m : LockManager C R Rid}
    (hm : LockManager.Drops call.args.requestId (s.managers call.args.node) m) {stage : CallStage}
    (hkept : Call.Kept call { call with stage := stage })
    (hstage : ¬ ({ call with stage := stage } : Call N C R Rid).Pending) :
    ((s.setManager call.args.node m).setStage k call stage).Booked := by
  have hself : ((s.setManager call.args.node m).setStage k call stage).managers call.args.node =
      m := managers_setManager_self s _ m
  have hother : ∀ j, j ≠ call.args.node →
      ((s.setManager call.args.node m).setStage k call stage).managers j = s.managers j :=
    fun j hne => managers_setManager_of_ne s hne m
  refine h.continues (keepsCalls_setCall (s := s) hk hkept) (fun j requestId i hreg => ?_)
    fun j call' hj => ?_
  · rcases eq_or_ne j call.args.node with rfl | hne
    · rw [hself] at hreg
      rcases hm.pending requestId with hsame | ⟨-, hnone⟩
      · rwa [hsame] at hreg
      · rw [hnone] at hreg
        cases hreg
    · rwa [hother j hne] at hreg
  · rcases getElem?_set_cases hj with ⟨rfl, rfl⟩ | ⟨hne, hold⟩
    · exact ⟨call, hk, rfl, fun hp => absurd hp hstage⟩
    · refine ⟨call', hold, rfl, fun hp => ⟨hp, fun requestId hid => ⟨?_, Or.inl rfl⟩⟩⟩
      rcases eq_or_ne call'.args.node call.args.node with hnode | hnode
      · rw [hnode, hself]
        rcases hm.timers requestId with hsame | ⟨hown, -⟩
        · exact hsame
        · exact absurd (hids j k call' call requestId hold hk hnode hid hown) (by omega)
      · rw [hother _ hnode]

/-! ## Calls that change and calls that are new -/

omit [DecidableEq N] [DecidableEq C] [DecidableEq R] in
theorem cleanedUp_setCall {s : LockCluster N C R Rid} (h : s.CleanedUp) {k : ℕ}
    {call call' : Call N C R Rid} (hk : s.calls[k]? = some call) (hargs : call'.args = call.args)
    (hended : call'.Ended → call.Ended ∨ call.args.requestId = none) :
    (s.setCall k call').CleanedUp := by
  refine h.continues (fun _ _ hc => hc) fun j other requestId hj hother hid => Or.inl ?_
  rcases getElem?_set_cases hj with ⟨rfl, rfl⟩ | ⟨-, hold⟩
  · rcases hended hother with hold | hnone
    · exact ⟨call, hk, hold, hargs.symm⟩
    · rw [hargs, hnone] at hid
      cases hid
  · exact ⟨other, hold, hother, rfl⟩

omit [DecidableEq N] [DecidableEq C] [DecidableEq R] in
theorem booked_setCall {s : LockCluster N C R Rid} (h : s.Booked) {k : ℕ}
    {call call' : Call N C R Rid} (hk : s.calls[k]? = some call) (hkept : Call.Kept call call')
    (hfuture : call'.future = call.future) : (s.setCall k call').Booked := by
  refine h.continues (keepsCalls_setCall hk hkept) (fun _ _ _ hreg => hreg) fun j other hj => ?_
  rcases getElem?_set_cases hj with ⟨rfl, rfl⟩ | ⟨-, hold⟩
  · exact ⟨call, hk, hkept.args, fun hp => ⟨hkept.pending hp, fun _ _ => ⟨rfl, Or.inl hfuture⟩⟩⟩
  · exact ⟨other, hold, rfl, fun hp => ⟨hp, fun _ _ => ⟨rfl, Or.inl rfl⟩⟩⟩

omit [DecidableEq N] [DecidableEq C] [DecidableEq R] in
/-- A call without a request id. -/
theorem cleanedUp_addCall {s : LockCluster N C R Rid} (h : s.CleanedUp) {call : Call N C R Rid}
    (hid : call.args.requestId = none) : (s.addCall call).CleanedUp := by
  refine h.continues (fun _ _ hc => hc) fun j other requestId hj hother hown => Or.inl ?_
  rcases getElem?_concat_cases hj with hold | ⟨-, rfl⟩
  · exact ⟨other, hold, hother, rfl⟩
  · rw [hid] at hown
    cases hown

omit [DecidableEq N] [DecidableEq C] [DecidableEq R] in
theorem booked_addCall {s : LockCluster N C R Rid} (h : s.Booked) {call : Call N C R Rid}
    (hid : call.args.requestId = none) : (s.addCall call).Booked where
  registered i requestId k hreg := by
    obtain ⟨owner, howner, hrest⟩ := h.registered i requestId k hreg
    exact ⟨owner, getElem?_append_of_some howner _, hrest⟩
  timed k other requestId hk hp hown := by
    rcases getElem?_concat_cases hk with hold | ⟨-, rfl⟩
    · exact h.timed k other requestId hold hp hown
    · rw [hid] at hown
      cases hown
  resolved k other requestId hk hp hown := by
    rcases getElem?_concat_cases hk with hold | ⟨-, rfl⟩
    · exact h.resolved k other requestId hold hp hown
    · rw [hid] at hown
      cases hown

/-! ## Calls that start -/

/-- An ended call of the node already has the request id that a new one gets. -/
def Reuses (cfg : LockConfig N C R Rid) (s : LockCluster N C R Rid) (env : Env C ℚ) (i : N)
    (op : LockOp) (c : C) (r : R) : Prop :=
  (s.raft.nodes i).state = .leader ∧
    ∃ (k : ℕ) (call : Call N C R Rid) (requestId : Rid), s.calls[k]? = some call ∧ call.Ended ∧
      call.args.node = i ∧ call.args.requestId = some requestId ∧
      (s.proposalArgs cfg env i op c r).requestId = some requestId

omit [DecidableEq C] [DecidableEq R] in
/-- Only the new request id gets entries. -/
theorem managers_proposing {s : LockCluster N C R Rid} {env : Env C ℚ} {args : CallArgs N C R Rid}
    {j : N} {requestId : Rid} (h : args.node ≠ j ∨ args.requestId ≠ some requestId) :
    ((s.proposing env args).managers j).pendingRequests.get? requestId =
        (s.managers j).pendingRequests.get? requestId ∧
      ((s.proposing env args).managers j).timers.get? requestId =
        (s.managers j).timers.get? requestId := by
  unfold proposing
  cases hid : args.requestId with
  | none => exact ⟨rfl, rfl⟩
  | some own =>
    let m := s.managers args.node
    show ((s.setManager args.node { m with
        pendingRequests := m.pendingRequests.set own s.calls.length
        timers := m.timers.set own env.now }).managers j).pendingRequests.get? requestId = _ ∧
      ((s.setManager args.node { m with
        pendingRequests := m.pendingRequests.set own s.calls.length
        timers := m.timers.set own env.now }).managers j).timers.get? requestId = _
    rcases eq_or_ne j args.node with rfl | hne
    · have hown : requestId ≠ own := by
        rintro rfl
        rcases h with hnode | hne
        · exact hnode rfl
        · exact hne hid
      rw [managers_setManager_self]
      exact ⟨Dict.get?_set_ne _ _ hown.symm, Dict.get?_set_ne _ _ hown.symm⟩
    · rw [managers_setManager_of_ne s hne]
      exact ⟨rfl, rfl⟩

omit [DecidableEq C] [DecidableEq R] in
theorem timers_proposing {s : LockCluster N C R Rid} {env : Env C ℚ} {args : CallArgs N C R Rid}
    {requestId : Rid} (h : args.requestId = some requestId) :
    ((s.proposing env args).managers args.node).timers.get? requestId = some env.now := by
  unfold proposing
  rw [h]
  let m := s.managers args.node
  show ((s.setManager args.node { m with
      pendingRequests := m.pendingRequests.set requestId s.calls.length
      timers := m.timers.set requestId env.now }).managers args.node).timers.get? requestId = _
  rw [managers_setManager_self]
  exact Dict.get?_set_self _ _ _

theorem startCall_cases {s s' : LockCluster N C R Rid} {env : Env C ℚ} {i : N} {op : LockOp} {c : C}
    {r : R} (h : s.startCall cfg env i op c r = some s') :
    ((s.raft.nodes i).state = .leader ∧ ∃ raft : Cluster N (Proposal C R Rid),
      s' = ({ s.proposing env (s.proposalArgs cfg env i op c r) with raft := raft }.callbacks env i
        (s.raft.nodes i) (raft.nodes i))) ∨
      (s.raft.nodes i).state ≠ .leader ∧ ∃ call : Call N C R Rid, call.args.requestId = none ∧
        s' = s.addCall call := by
  by_cases hleader : (s.raft.nodes i).state = .leader
  · refine Or.inl ⟨hleader, ?_⟩
    unfold startCall raftStep at h
    simp only [hleader, if_true, Cluster.actor, raft_proposing, Action.crashFree] at h
    split at h
    · split at h
      · rename_i raft hactor _
        obtain rfl := Option.some.inj hactor
        exact ⟨raft, (Option.some.inj h).symm⟩
      · cases h
    · cases h
  · refine Or.inr ⟨hleader, ?_⟩
    unfold startCall at h
    simp only [hleader, if_false] at h
    split at h
    · split at h
      · split at h
        · exact ⟨_, rfl, (Option.some.inj h).symm⟩
        · exact ⟨_, rfl, (Option.some.inj h).symm⟩
      · exact ⟨_, rfl, (Option.some.inj h).symm⟩
    · cases h

/-- A call of the leader gets both entries, so no ended call may have its request id. -/
theorem cleanedUp_startCall {s s' : LockCluster N C R Rid} (h : s.CleanedUp) {env : Env C ℚ} {i : N}
    {op : LockOp} {c : C} {r : R} (hs : s.startCall cfg env i op c r = some s') :
    s'.CleanedUp ↔ ¬ Reuses cfg s env i op c r := by
  rcases startCall_cases hs with ⟨hleader, raft, rfl⟩ | ⟨hrole, call, hid, rfl⟩
  · let args := s.proposalArgs cfg env i op c r
    have hcalls := calls_proposing s env args
    have hsettles := settles_callbacks env i (s.raft.nodes i) (raft.nodes i)
      { s.proposing env args with raft := raft }
    constructor
    · rintro hs' ⟨-, k, call, requestId, hk, hended, hnode, hid, hnew⟩
      have hlt := (List.getElem?_eq_some_iff.mp hk).1
      have hk' : (s.proposing env args).calls[k]? = some call := by
        rw [hcalls, List.getElem?_append_left hlt, hk]
      obtain ⟨call', hcall', heq⟩ := exists_outline hsettles.outlines.symm hk'
      have hargs : call'.args = call.args := congrArg (·.1) heq
      have hstage : call'.stage = call.stage := congrArg (·.2.1) heq
      have hended' : call'.Ended := by
        unfold Call.Ended at hended ⊢
        rwa [hstage]
      have hclean := (hs' k call' requestId hcall' hended' (by rw [hargs]; exact hid)).2
      rw [hsettles.timers, hargs, hnode] at hclean
      have htimer : ((s.proposing env args).managers i).timers.get? requestId = some env.now :=
        timers_proposing hnew
      have hclean : ((s.proposing env args).managers i).timers.get? requestId = none := hclean
      rw [htimer] at hclean
      cases hclean
    · intro hnot
      refine hsettles.cleanedUp fun k call requestId hk hended hid => ?_
      have hk : (s.proposing env args).calls[k]? = some call := hk
      rw [hcalls] at hk
      rcases getElem?_concat_cases hk with hold | ⟨-, rfl⟩
      · have hclean := h k call requestId hold hended hid
        have hnew : args.node ≠ call.args.node ∨ args.requestId ≠ some requestId := by
          by_contra hboth
          obtain ⟨hnode, hown⟩ := not_or.mp hboth
          exact hnot ⟨hleader, k, call, requestId, hold, hended, (not_not.mp hnode).symm, hid,
            not_not.mp hown⟩
        obtain ⟨hpending, htimers⟩ := managers_proposing hnew (s := s)
        exact ⟨hpending.trans hclean.1, htimers.trans hclean.2⟩
      · rcases hended with hw | ⟨status, hw⟩ <;> cases hw
  · exact ⟨fun _ hreuses => hrole hreuses.1, fun _ => cleanedUp_addCall h hid⟩

theorem booked_started {s s' : LockCluster N C R Rid} (h : s.Booked) {env : Env C ℚ} {i : N}
    {op : LockOp} {c : C} {r : R} (hs : Started cfg s env i op c r s') (hids : s'.NodeIds) :
    s'.Booked := by
  cases hs with
  | @proposes raft hi hleader hraft =>
    let args := s.proposalArgs cfg env i op c r
    have hcalls := calls_proposing s env args
    have hsettles := settles_callbacks env i (s.raft.nodes i) (raft.nodes i)
      { s.proposing env args with raft := raft }
    refine hsettles.booked (Booked.withRaft ?_ raft)
    have hids : (s.proposing env args).NodeIds :=
      hids.of_keeps (KeepsCalls.of_outlines (s := s.proposing env args) hsettles.outlines)
    have hnew : (s.proposing env args).calls[s.calls.length]? =
        some ⟨args, .proposing s.raft.tasks.length, none, none⟩ := by
      rw [hcalls, List.getElem?_concat_length]
    refine ⟨fun j requestId k hreg => ?_, fun k call requestId hk hp hid => ?_,
      fun k call requestId hk hp hid hfuture => ?_⟩
    · rcases pending_proposing hreg with hold | ⟨rfl, hnode, hid⟩
      · obtain ⟨owner, howner, hrest⟩ := h.registered j requestId k hold
        exact ⟨owner, by rw [hcalls]; exact getElem?_append_of_some howner _, hrest⟩
      · exact ⟨_, hnew, hnode, hid⟩
    · by_cases hsame : args.node ≠ call.args.node ∨ args.requestId ≠ some requestId
      · rw [(managers_proposing hsame).2]
        rw [hcalls] at hk
        rcases getElem?_concat_cases hk with hold | ⟨-, rfl⟩
        · exact h.timed k call requestId hold hp hid
        · exact absurd hid (hsame.resolve_left (fun hne => hne rfl))
      · obtain ⟨hnode, hown⟩ := not_or.mp hsame
        rw [← not_not.mp hnode, timers_proposing (not_not.mp hown)]
        exact Option.some_ne_none _
    · have hk' := hk
      rw [hcalls] at hk
      rcases getElem?_concat_cases hk with hold | ⟨-, rfl⟩
      · have hlt := (List.getElem?_eq_some_iff.mp hold).1
        have hother : args.node ≠ call.args.node ∨ args.requestId ≠ some requestId := by
          by_contra hsame
          obtain ⟨hnode, hown⟩ := not_or.mp hsame
          have := hids k s.calls.length call _ requestId hk' hnew (not_not.mp hnode).symm hid
            (not_not.mp hown)
          omega
        rw [(managers_proposing hother).1]
        exact h.resolved k call requestId hold hp hid hfuture
      · exact absurd rfl hfuture
  | forwards => exact booked_addCall h rfl
  | denied => exact booked_addCall h rfl

/-! ## Steps and runs -/

/-- A release_lock and a forwarded call have no request id. -/
def IdsOfAcquires (s : LockCluster N C R Rid) : Prop :=
  ∀ (k : ℕ) call, s.calls[k]? = some call → call.stage = .forwarding ∨ call.args.op = .release →
    call.args.requestId = none

omit [DecidableEq N] [DecidableEq C] [DecidableEq R] [DecidableEq Rid] in
theorem IdsOfAcquires.of_kept {s s' : LockCluster N C R Rid} (h : s.IdsOfAcquires)
    (hcalls : ∀ (k : ℕ) call', s'.calls[k]? = some call' →
      ∃ call, s.calls[k]? = some call ∧ Call.Kept call call') : s'.IdsOfAcquires := by
  intro k call' hk hor
  obtain ⟨call, hcall, hkept⟩ := hcalls k call' hk
  rw [hkept.args] at hor ⊢
  exact h k call hcall (hor.imp_left hkept.forwarding)

omit [DecidableEq N] [DecidableEq C] [DecidableEq R] [DecidableEq Rid] in
theorem IdsOfAcquires.of_outlines {s s' : LockCluster N C R Rid} (h : s.IdsOfAcquires)
    (houtlines : s'.outlines = s.outlines) : s'.IdsOfAcquires := by
  refine h.of_kept fun k call' hk => ?_
  obtain ⟨call, hcall, heq⟩ := exists_outline houtlines hk
  exact ⟨call, hcall, .of_outline heq.symm⟩

omit [DecidableEq N] [DecidableEq C] [DecidableEq R] [DecidableEq Rid] in
theorem IdsOfAcquires.setCall {s s' : LockCluster N C R Rid} (h : s.IdsOfAcquires)
    (hcalls : s'.calls = s.calls) {k : ℕ} {call call' : Call N C R Rid}
    (hk : s.calls[k]? = some call) (hkept : Call.Kept call call') :
    (s'.setCall k call').IdsOfAcquires := by
  refine h.of_kept fun j other hj => ?_
  rcases getElem?_set_cases hj with ⟨rfl, rfl⟩ | ⟨-, hold⟩
  · exact ⟨call, hk, hkept⟩
  · exact ⟨other, by rw [← hcalls]; exact hold, .refl other⟩

theorem IdsOfAcquires.started {s s' : LockCluster N C R Rid} (h : s.IdsOfAcquires) {env : Env C ℚ}
    {i : N} {op : LockOp} {c : C} {r : R} (hs : Started cfg s env i op c r s') :
    s'.IdsOfAcquires := by
  cases hs with
  | @proposes raft =>
    have hproposing : (s.proposing env (s.proposalArgs cfg env i op c r)).IdsOfAcquires := by
      intro k call hk hor
      rw [calls_proposing] at hk
      rcases getElem?_concat_cases hk with hold | ⟨-, rfl⟩
      · exact h k call hold hor
      · rcases hor with hstage | hop
        · cases hstage
        · obtain rfl : op = .release := hop
          rfl
    exact hproposing.of_outlines (settles_callbacks env i _ _ { s.proposing env _ with raft := raft
      }).outlines
  | forwards =>
    intro k call hk hor
    rcases getElem?_concat_cases hk with hold | ⟨-, rfl⟩
    · exact h k call hold hor
    · rfl
  | denied =>
    intro k call hk hor
    rcases getElem?_concat_cases hk with hold | ⟨-, rfl⟩
    · exact h k call hold hor
    · rfl

theorem IdsOfAcquires.step {s s' : LockCluster N C R Rid} (h : s.IdsOfAcquires)
    {x : Env C ℚ × LockAction N C R Rid} (hstep : s.step cfg x = some s') : s'.IdsOfAcquires := by
  cases stepped hstep with
  | @raft env a i raft => exact h.of_outlines (outlines_callbacks env i _ _ _)
  | restart =>
    refine h.of_kept fun k call' hk => ?_
    obtain ⟨call, hcall, ⟨-, rfl⟩ | ⟨-, rfl⟩⟩ := exists_restart hk
    · exact ⟨call, hcall, Call.kept_crash call⟩
    · exact ⟨call', hcall, .refl call'⟩
  | acquireLock hs => exact h.started hs
  | releaseLock hs => exact h.started hs
  | @proposed env k task call hk hstage =>
    have hp : call.Pending := Or.inr ⟨task, hstage⟩
    unfold proposed
    split
    · exact h.setCall rfl hk (.returns hp.not_returned)
    · split
      · obtain ⟨m, -, -, -, heq⟩ := finish_drops s k call _
        rw [heq]
        exact h.setCall rfl hk (.returns hp.not_returned)
      · exact h.setCall rfl hk (.stage hp.not_returned (fun _ => hp) fun h => by cases h)
  | @proposeRaises env k task call hk hstage =>
    have hp : call.Pending := Or.inr ⟨task, hstage⟩
    exact h.setCall rfl hk (.stage hp.not_returned (fun _ => hp) fun h => by cases h)
  | @wake env k call result hk hstage =>
    obtain ⟨m, -, -, -, heq⟩ := finish_drops s k call result
    rw [heq]
    exact h.setCall rfl hk (.returns (Call.Pending.not_returned (Or.inl hstage)))
  | @timeout env k call hk hstage =>
    obtain ⟨m, -, -, -, heq⟩ := timeout_drops s k call
    rw [heq]
    exact h.setCall rfl hk (.returns (Call.Pending.not_returned (Or.inl hstage)))
  | @deliver env k call target s' hk hmessage hs =>
    obtain ⟨call', hk', heq⟩ := outline_started hs hk
    rw [setDelivery_eq hk']
    exact (h.started hs).setCall rfl hk'
      (Call.kept_setDelivery _ ((congrArg (·.2.2) heq).trans hmessage))
  | lose hk hmessage =>
    rw [setDelivery_eq hk]
    exact h.setCall rfl hk (Call.kept_setDelivery _ hmessage)
  | response hk hstage =>
    exact h.setCall rfl hk (.returns (Call.not_returned_of_forwarding hstage))
  | noResponse hk hstage =>
    exact h.setCall rfl hk (.returns (Call.not_returned_of_forwarding hstage))

/-- What has to be gone before the step, for the calls that end in it and the one that starts. -/
def LeavesNothing (cfg : LockConfig N C R Rid) (s : LockCluster N C R Rid)
    (x : Env C ℚ × LockAction N C R Rid) : Prop :=
  match x.2 with
  | .acquireLock i c r lockType => ¬ Reuses cfg s x.1 i (.acquire lockType) c r
  | .deliver k => ∀ call target, s.calls[k]? = some call → call.message = some (target, .inFlight) →
      ¬ Reuses cfg s x.1 target call.args.op call.args.clientId call.args.resourceId
  | .proposed k => ∀ call requestId, s.calls[k]? = some call → call.future ≠ none →
      call.args.requestId = some requestId →
      (s.managers call.args.node).pendingRequests.get? requestId = none
  | .wake k => ∀ call requestId, s.calls[k]? = some call →
      call.args.requestId = some requestId →
      (s.managers call.args.node).pendingRequests.get? requestId = none
  | .timeout k => ∀ call requestId, s.calls[k]? = some call →
      call.args.requestId = some requestId →
      (s.managers call.args.node).timers.get? requestId = none
  | .proposeRaises k => ∀ call requestId, s.calls[k]? = some call →
      call.args.requestId = some requestId → s.Clean call.args.node requestId
  | _ => True

theorem delivered {s s' : LockCluster N C R Rid} {env : Env C ℚ} {k : ℕ}
    (h : s.step cfg (env, .deliver k) = some s') :
    ∃ call target s₁, s.calls[k]? = some call ∧ call.message = some (target, .inFlight) ∧
      s.startCall cfg env target call.args.op call.args.clientId call.args.resourceId = some s₁ ∧
      s' = s₁.setDelivery k (.handled s.calls.length) := by
  simp only [LockCluster.step] at h
  split at h
  · rename_i hk
    split at h
    · rename_i hmessage
      obtain ⟨s₁, hs₁, rfl⟩ := Option.map_eq_some_iff.mp h
      exact ⟨_, _, s₁, hk, hmessage, hs₁, rfl⟩
    · cases h
  · cases h

omit [DecidableEq N] [DecidableEq C] [DecidableEq R] in
theorem cleanedUp_setDelivery {s : LockCluster N C R Rid} {k : ℕ} {call : Call N C R Rid}
    (hk : s.calls[k]? = some call) (delivery : Delivery) :
    (s.setDelivery k delivery).CleanedUp ↔ s.CleanedUp := by
  rw [setDelivery_eq hk]
  refine ⟨fun h j other requestId hj hended hid => ?_, fun h => cleanedUp_setCall h hk rfl Or.inl⟩
  rcases eq_or_ne k j with rfl | hne
  · obtain rfl := Option.some.inj (hk.symm.trans hj)
    exact h k (call.setDelivery delivery) requestId (getElem?_set_of_some hk _) hended hid
  · exact h j other requestId ((List.getElem?_set_ne hne).trans hj) hended hid

/-- A step keeps the tables cleaned up exactly when it leaves nothing. -/
theorem cleanedUp_step {s s' : LockCluster N C R Rid} (hids : s.IdsOfAcquires) (h : s.CleanedUp)
    {x : Env C ℚ × LockAction N C R Rid} (hstep : s.step cfg x = some s') :
    s'.CleanedUp ↔ LeavesNothing cfg s x := by
  have hfinish : ∀ {k : ℕ} {call : Call N C R Rid} (result : LockStatus),
      s.calls[k]? = some call → ((s.finish k call result).CleanedUp ↔
        ∀ requestId, call.args.requestId = some requestId →
          (s.managers call.args.node).pendingRequests.get? requestId = none) := by
    intro k call result hk
    obtain ⟨m, hm, hpending, htimers, heq⟩ := finish_drops s k call result
    rw [heq, cleanedUp_ends h hk hm (Or.inr ⟨result, rfl⟩), hpending]
    exact ⟨fun hall requestId hid => (hall requestId hid).1,
      fun hall requestId hid => ⟨hall requestId hid, htimers requestId hid⟩⟩
  cases stepped hstep with
  | @raft env a i raft =>
    exact iff_of_true ((settles_callbacks env i _ _ _).cleanedUp (s := { s with raft := raft }) h)
      trivial
  | @restart env a i raft =>
    exact iff_of_true (cleanedUp_restart (s := { s with raft := raft }) h i) trivial
  | acquireLock => exact cleanedUp_startCall h hstep
  | @releaseLock env i c r =>
    have hstart : s.startCall cfg env i .release c r = some s' := hstep
    refine (cleanedUp_startCall h hstart).trans (iff_of_true ?_ trivial)
    rintro ⟨-, k, call, requestId, -, -, -, -, hnew⟩
    cases hnew
  | @proposed env k task call hk hstage =>
    have hsame : LeavesNothing cfg s (env, .proposed k) ↔ ∀ requestId, call.future ≠ none →
        call.args.requestId = some requestId →
        (s.managers call.args.node).pendingRequests.get? requestId = none := forall_entry_iff hk
    rw [hsame]
    unfold proposed
    split
    · rename_i hop
      have hnone := hids k call hk (Or.inr hop)
      refine iff_of_true (cleanedUp_setCall h hk rfl fun _ => Or.inr hnone)
        fun requestId _ hid => ?_
      rw [hnone] at hid
      cases hid
    · split
      · rename_i result hfuture
        rw [hfinish result hk]
        exact ⟨fun hall requestId _ => hall requestId,
          fun hall requestId => hall requestId (by rw [hfuture]; exact Option.some_ne_none _)⟩
      · rename_i hfuture
        refine iff_of_true (cleanedUp_setCall h hk rfl fun hended => ?_)
          fun requestId hne => absurd hfuture hne
        rcases hended with hw | ⟨status, hw⟩ <;> cases hw
  | @proposeRaises env k task call hk hstage =>
    have hset : ((s.setManager call.args.node (s.managers call.args.node)).setStage k call
        .raised).CleanedUp ↔ _ := cleanedUp_ends h hk (.refl _ _) (Or.inl rfl)
    rw [setManager_self] at hset
    refine Iff.trans ?_ (forall_entry_iff hk).symm
    exact hset
  | @wake env k call result hk hstage =>
    refine Iff.trans ?_ (forall_entry_iff hk).symm
    exact hfinish result hk
  | @timeout env k call hk hstage =>
    obtain ⟨m, hm, htimers, hpending, heq⟩ := timeout_drops s k call
    rw [heq, cleanedUp_ends h hk hm (Or.inr ⟨.timeout, rfl⟩), htimers]
    refine Iff.trans ?_ (forall_entry_iff hk).symm
    exact forall_congr' fun requestId => forall_congr' fun hid => and_iff_right
      (hpending requestId hid)
  | @deliver env k =>
    obtain ⟨call, target, s₁, hk, hmessage, hstart, heq⟩ := delivered hstep
    obtain ⟨call', hk', -⟩ := keepsCalls_started (started hstart) k call hk
    rw [heq, cleanedUp_setDelivery hk', cleanedUp_startCall h hstart]
    refine ⟨fun hnot other target' hother hmessage' => ?_, fun hall =>
      hall call target hk hmessage⟩
    obtain rfl := Option.some.inj (hk.symm.trans hother)
    obtain ⟨rfl, -⟩ := Prod.mk.inj (Option.some.inj (hmessage.symm.trans hmessage'))
    exact hnot
  | lose hk => exact iff_of_true ((cleanedUp_setDelivery hk _).mpr h) trivial
  | response hk hstage =>
    exact iff_of_true (cleanedUp_setCall h hk rfl fun _ => Or.inr (hids _ _ hk (Or.inl hstage)))
      trivial
  | noResponse hk hstage =>
    exact iff_of_true (cleanedUp_setCall h hk rfl fun _ => Or.inr (hids _ _ hk (Or.inl hstage)))
      trivial

/-! ## Distinct request ids -/

/-- No acquire_lock call ends by TIMEOUT or by an exception out of `propose`. -/
def endsWell (s : LockCluster N C R Rid) (x : Env C ℚ × LockAction N C R Rid) : Bool :=
  match x.2 with
  | .timeout k => (s.calls[k]?).all fun call => call.args.requestId.isNone
  | .proposeRaises k => (s.calls[k]?).all fun call => call.args.requestId.isNone
  | _ => true

theorem not_reuses {s s' : LockCluster N C R Rid} {env : Env C ℚ} {i : N} {op : LockOp} {c : C}
    {r : R} (hs : s.startCall cfg env i op c r = some s') (hids : s'.NodeIds) :
    ¬ Reuses cfg s env i op c r := by
  rintro ⟨hleader, k, call, requestId, hk, -, hnode, hid, hnew⟩
  have hlt := (List.getElem?_eq_some_iff.mp hk).1
  obtain ⟨later, hlater, hkept⟩ := keepsCalls_started (started hs) k call hk
  rcases startCall_cases hs with ⟨-, raft, rfl⟩ | ⟨hrole, -⟩
  · let args := s.proposalArgs cfg env i op c r
    have hadded : (s.proposing env args).calls[s.calls.length]? =
        some ⟨args, .proposing s.raft.tasks.length, none, none⟩ := by
      rw [calls_proposing, List.getElem?_concat_length]
    obtain ⟨added, hcall, heq⟩ := exists_outline (settles_callbacks env i (s.raft.nodes i)
      (raft.nodes i) { s.proposing env args with raft := raft }).outlines.symm hadded
    have hargs : added.args = args := congrArg (·.1) heq
    have := hids k s.calls.length later added requestId hlater hcall
      (by rw [hkept.args, hargs, hnode]; rfl) (by rw [hkept.args]; exact hid)
      (by rw [hargs]; exact hnew)
    omega
  · exact hrole hleader

theorem Booked.step {s s' : LockCluster N C R Rid} (h : s.Booked) (hids : s'.NodeIds)
    {x : Env C ℚ × LockAction N C R Rid} (hstep : s.step cfg x = some s') : s'.Booked := by
  have hnow : s.NodeIds := hids.of_keeps (keepsCalls_step hstep)
  have hfinish : ∀ {k : ℕ} {call : Call N C R Rid} (result : LockStatus),
      s.calls[k]? = some call → call.Pending → (s.finish k call result).Booked := by
    intro k call result hk hp
    obtain ⟨m, hm, -, -, heq⟩ := finish_drops s k call result
    rw [heq]
    exact booked_ends h hnow hk hm (.returns hp.not_returned) (Call.not_pending_returned call _)
  cases stepped hstep with
  | @raft env a i raft => exact (settles_callbacks env i _ _ _).booked (h.withRaft raft)
  | @restart env a i raft => exact booked_restart (h.withRaft raft) i
  | acquireLock hs => exact booked_started h hs hids
  | releaseLock hs => exact booked_started h hs hids
  | @proposed env k task call hk hstage =>
    have hp : call.Pending := Or.inr ⟨task, hstage⟩
    unfold proposed
    split
    · exact booked_setCall h hk (.returns hp.not_returned) rfl
    · split
      · exact hfinish _ hk hp
      · exact booked_setCall h hk (.stage hp.not_returned (fun _ => hp) fun h => by cases h) rfl
  | @proposeRaises env k task call hk hstage =>
    have hp : call.Pending := Or.inr ⟨task, hstage⟩
    exact booked_setCall h hk (.stage hp.not_returned (fun _ => hp) fun h => by cases h) rfl
  | wake hk hstage => exact hfinish _ hk (Or.inl hstage)
  | @timeout env k call hk hstage =>
    obtain ⟨m, hm, -, -, heq⟩ := timeout_drops s k call
    rw [heq]
    exact booked_ends h hnow hk hm (.returns (Call.Pending.not_returned (Or.inl hstage)))
      (Call.not_pending_returned call _)
  | @deliver env k call target s₁ hk hmessage hs =>
    obtain ⟨call', hk', heq⟩ := outline_started hs hk
    have hmessage' := (congrArg (·.2.2) heq).trans hmessage
    have hbooked := booked_started h hs (hids.of_keeps (keepsCalls_setDelivery hk' _ hmessage'))
    rw [setDelivery_eq hk']
    exact booked_setCall hbooked hk' (Call.kept_setDelivery _ hmessage') rfl
  | lose hk hmessage =>
    rw [setDelivery_eq hk]
    exact booked_setCall h hk (Call.kept_setDelivery _ hmessage) rfl
  | response hk hstage =>
    exact booked_setCall h hk (.returns (Call.not_returned_of_forwarding hstage)) rfl
  | noResponse hk hstage =>
    exact booked_setCall h hk (.returns (Call.not_returned_of_forwarding hstage)) rfl

/-- The timer of a pending acquire_lock runs, and its future is popped before it wakes up. -/
theorem leavesNothing_iff {s s' : LockCluster N C R Rid} (h : s.Booked) (hids : s'.NodeIds)
    {x : Env C ℚ × LockAction N C R Rid} (hstep : s.step cfg x = some s') :
    LeavesNothing cfg s x ↔ s.endsWell x = true := by
  have hraises : ∀ {k : ℕ} {call : Call N C R Rid}, s.calls[k]? = some call → call.Pending →
      ((∀ other requestId, s.calls[k]? = some other → other.args.requestId = some requestId →
        (s.managers other.args.node).timers.get? requestId = none) ↔
          (s.calls[k]?).all (fun call => call.args.requestId.isNone) = true) := by
    intro k call hk hp
    rw [hk]
    constructor
    · intro hall
      cases hid : call.args.requestId with
      | none => simp [hid]
      | some requestId =>
        exact absurd (hall call requestId rfl hid) (h.timed k call requestId hk hp hid)
    · intro hnone other requestId hother hid
      obtain rfl := Option.some.inj hother
      rw [Option.all_some, hid] at hnone
      cases hnone
  cases stepped hstep with
  | raft => exact iff_of_true trivial rfl
  | restart => exact iff_of_true trivial rfl
  | acquireLock => exact iff_of_true (not_reuses hstep hids) rfl
  | releaseLock => exact iff_of_true trivial rfl
  | @proposed env k task call hk hstage =>
    exact iff_of_true ((forall_entry_iff hk).mpr fun requestId hfuture hid =>
      h.resolved k call requestId hk (Or.inr ⟨task, hstage⟩) hid hfuture) rfl
  | @proposeRaises env k task call hk hstage =>
    have hp : call.Pending := Or.inr ⟨task, hstage⟩
    refine Iff.trans ⟨fun hall other requestId hother hid => (hall other requestId hother hid).2,
      fun hall other requestId hother hid => ?_⟩ (hraises hk hp)
    obtain rfl := Option.some.inj (hk.symm.trans hother)
    exact absurd (hall call requestId hk hid) (h.timed k call requestId hk hp hid)
  | @wake env k call result hk hstage hfuture =>
    exact iff_of_true ((forall_entry_iff hk).mpr fun requestId hid =>
      h.resolved k call requestId hk (Or.inl hstage) hid
        (by rw [hfuture]; exact Option.some_ne_none _)) rfl
  | timeout hk hstage => exact hraises hk (Or.inl hstage)
  | @deliver env k =>
    obtain ⟨call, target, s₁, hk, hmessage, hstart, heq⟩ := delivered hstep
    obtain ⟨call', hk', houtline⟩ := outline_started (started hstart) hk
    have hids₁ : s₁.NodeIds := by
      rw [heq] at hids
      exact hids.of_keeps
        (keepsCalls_setDelivery hk' _ ((congrArg (·.2.2) houtline).trans hmessage))
    refine iff_of_true (fun other target' hother hmessage' => ?_) rfl
    obtain rfl := Option.some.inj (hk.symm.trans hother)
    obtain ⟨rfl, -⟩ := Prod.mk.inj (Option.some.inj (hmessage.symm.trans hmessage'))
    exact not_reuses hstart hids₁
  | lose => exact iff_of_true trivial rfl
  | response => exact iff_of_true trivial rfl
  | noResponse => exact iff_of_true trivial rfl

/-- Over a run, ended acquire_lock calls have no entries exactly when each step leaves nothing;
    with distinct request ids that is when none of them ends by TIMEOUT or an exception. -/
theorem cleaned_up_iff {start : N → ℚ} {xs : List (Env C ℚ × LockAction N C R Rid)}
    {s' : LockCluster N C R Rid} (hrun : (boot start).run cfg xs = some s') :
    (Transition.Throughout (LockCluster.step cfg) CleanedUp (boot start) xs ↔
      (boot start).EachStep cfg (LeavesNothing cfg) xs) ∧
    (s'.NodeIds → ((boot start).EachStep cfg (LeavesNothing cfg) xs ↔
      (boot start).EachStep cfg (fun s x => s.endsWell x = true) xs)) := by
  constructor
  · exact Transition.throughout_iff (fun _ _ _ hids _ h hstep => cleanedUp_step hids h hstep)
      (fun _ _ hk => by cases hk)
      (Transition.throughout_of_step (fun _ _ _ h hstep => h.step hstep)
        (fun _ _ hk => by cases hk) xs)
      (fun _ _ _ hk => by cases hk) hrun
  · intro hids
    obtain ⟨hstart, hnodeIds⟩ := Transition.throughout_of_end
      (fun _ _ _ hstep h => h.of_keeps (keepsCalls_step hstep)) hrun hids
    have hboot : (boot start : LockCluster N C R Rid).Booked :=
      ⟨fun _ _ _ h => (by cases h), fun _ _ _ h => (by cases h), fun _ _ _ h => (by cases h)⟩
    have hbooked := hnodeIds.preserves (J := Booked) (fun _ _ _ h hids hstep => h.step hids hstep)
      hboot
    exact Transition.eachStep_iff (fun _ _ _ h h' hstep => leavesNothing_iff h.1 h'.2 hstep)
      ⟨hboot, hstart⟩ (hbooked.and hnodeIds) hrun

/-! ## Concrete runs -/

/-- A refusal as DEADLOCK and two grants leave nothing registered. -/
theorem cleaned_up_iff_refusal :
    Transition.Throughout (LockCluster.step oneNode) CleanedUp (boot fun _ => 0)
      (refusal ++ during 6 [.releaseLock 0 1 1]) := by
  have hrun : ((boot fun _ => 0).run oneNode (refusal ++ during 6 [.releaseLock 0 1 1])).any
      (fun s' => decide s'.DistinctIds) = true := by
    decide +kernel
  obtain ⟨s', hs', hids⟩ := (Option.any_eq_true _ _).mp hrun
  have hiff := cleaned_up_iff hs'
  exact hiff.1.mpr ((hiff.2 (of_decide_eq_true hids).nodeIds).mpr (by decide +kernel))

/-- The TIMEOUT of a queued request leaves its timer running. -/
theorem timeout_leaves_timer :
    ¬ ∀ (xs : List (Env (Fin 2) ℚ × LockAction (Fin 1) (Fin 2) (Fin 2) RequestId))
      (s' : LockCluster (Fin 1) (Fin 2) (Fin 2) RequestId),
      (boot fun _ => 0).run oneNode xs = some s' → s'.CleanedUp := by
  intro hclaim
  have hrun : ((boot fun _ => 0).run oneNode (queuedBehind ++ during 4 [.timeout 1])).any (fun s =>
      (s.calls[1]?).any (fun call => decide (call.stage = .returned .timeout) &&
          decide (call.args = ⟨0, .acquire .exclusive, 1, 0, some (1, 0, 3), some 2⟩)) &&
        ((s.managers 0).timers.get? (1, 0, 3)).isSome) = true := by
    decide +kernel
  obtain ⟨s, hs, hrest⟩ := (Option.any_eq_true _ _).mp hrun
  obtain ⟨hcall, htimer⟩ := Bool.and_eq_true_iff.mp hrest
  obtain ⟨call, hk, hcall⟩ := (Option.any_eq_true _ _).mp hcall
  obtain ⟨hstage, hargs⟩ := Bool.and_eq_true_iff.mp hcall
  have hargs := of_decide_eq_true hargs
  have hclean := (hclaim _ s hs 1 call (1, 0, 3) hk (Or.inr ⟨_, of_decide_eq_true hstage⟩)
    (by rw [hargs])).2
  rw [hargs] at hclean
  rw [hclean] at htimer
  cases htimer

end LockCluster

end Pynchronize
