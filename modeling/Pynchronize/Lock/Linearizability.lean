import Mathlib.Logic.Relation
import Pynchronize.Lock.Commit
import Pynchronize.Lock.Determinism
import Pynchronize.Lock.Refusals
import Pynchronize.Raft.Completeness

/-!
# One history behind all lock tables

The commands that any node has applied are a prefix of one list. So the lock
tables of all nodes are moments of one table (`tables_agree`), and every answer
that an acquire got from a table is the answer of that one table at a point
between the start of its call and its return (`acquires_linearizable`).
-/

namespace Pynchronize

open Lib Lib.Replication

/-- Of lists each of which begins with the other or the other way round one begins with all. -/
theorem exists_longest {α : Type*} {ls : List (List α)}
    (h : ∀ x ∈ ls, ∀ y ∈ ls, x <+: y ∨ y <+: x) :
    ∃ l, (l = [] ∨ l ∈ ls) ∧ ∀ x ∈ ls, x <+: l := by
  induction ls with
  | nil => exact ⟨[], Or.inl rfl, fun x hx => by cases hx⟩
  | cons y ls ih =>
    obtain ⟨l, hl, hall⟩ := ih fun x hx z hz =>
      h x (List.mem_cons_of_mem _ hx) z (List.mem_cons_of_mem _ hz)
    have hyl : y <+: l ∨ l <+: y := by
      rcases hl with rfl | hl
      · exact Or.inr List.nil_prefix
      · exact h y List.mem_cons_self l (List.mem_cons_of_mem _ hl)
    rcases hyl with hyl | hly
    · refine ⟨l, hl.imp_right (List.mem_cons_of_mem _), fun x hx => ?_⟩
      rcases List.mem_cons.mp hx with rfl | hx
      · exact hyl
      · exact hall x hx
    · refine ⟨y, Or.inr List.mem_cons_self, fun x hx => ?_⟩
      rcases List.mem_cons.mp hx with rfl | hx
      · exact List.prefix_rfl
      · exact (hall x hx).trans hly

/-! ## Replays -/

namespace Replica

variable {C R Rid τ : Type*}

theorem mapStamp_id (m : Replica C R τ) : m.mapStamp id = m := by
  have hreq : ∀ req : LockRequest C R τ, req.mapStamp id = req := fun req => rfl
  have hlock : ∀ lock : Lock C R τ, lock.mapStamp id = lock := by
    intro lock
    unfold Lock.mapStamp
    rw [List.map_congr_left fun req _ => hreq req, List.map_id']
  have htable : m.table.mapStamp id = m.table := by
    refine congrArg (fun locks => LockTable.mk locks m.table.deadlockDetector) ?_
    apply Dict.eq_of_items
    show m.table.locks.items.map _ = m.table.locks.items
    have hitem : ∀ kv : R × Lock C R τ, (kv.1, kv.2.mapStamp id) = kv := fun kv =>
      Prod.ext rfl (hlock kv.2)
    rw [List.map_congr_left fun kv _ => hitem kv, List.map_id']
  unfold mapStamp
  rw [htable, List.map_congr_left fun req _ => hreq req, List.map_id']

variable [DecidableEq C] [DecidableEq R]

/-- The order in which sets are walked has no influence on a replica. -/
theorem apply_order (order order' : SetOrder C) [DecidableEq τ] (now : τ) (m : Replica C R τ)
    (q : Proposal C R Rid) : m.apply ⟨order, now⟩ q = m.apply ⟨order', now⟩ q := by
  have happly := apply_mapStamp (show (Env.mk order' now).now = id (Env.mk order now).now from rfl)
    m q
  rw [mapStamp_id, mapStamp_id] at happly
  exact happly.symm

theorem replay_order (order order' : SetOrder C) (ps : List (Proposal C R Rid)) :
    replay order ps = replay order' ps := by
  induction ps using List.reverseRecOn with
  | nil => rfl
  | append_singleton ps p ih => rw [replay_concat, replay_concat, ← ih, apply_order order' order]

/-- What the table answers to the command at position `p` of a list. -/
def answerAt (order : SetOrder C) (ps : List (Proposal C R Rid)) (p : ℕ) :
    Option (ℕ × LockStatus) :=
  ps[p]?.bind fun q =>
    (((replay order (ps.take p)).apply ⟨order, q.call⟩ q).2).map fun st => (q.call, st)

theorem answerAt_order (order order' : SetOrder C) (ps : List (Proposal C R Rid)) (p : ℕ) :
    answerAt order ps p = answerAt order' ps p := by
  unfold answerAt
  rw [replay_order order order']
  refine congrArg _ (funext fun q => ?_)
  rw [apply_order order order']

theorem answerAt_of_isPrefix (order : SetOrder C) {ps qs : List (Proposal C R Rid)}
    (h : qs <+: ps) {p : ℕ} (hp : p < qs.length) : answerAt order ps p = answerAt order qs p := by
  obtain ⟨rest, rfl⟩ := h
  unfold answerAt
  rw [List.getElem?_append_left hp, List.take_append_of_le_length hp.le]

/-- An answer in the record is the answer to a command of the list. -/
theorem exists_answerAt {order : SetOrder C} {ps : List (Proposal C R Rid)} {c : ℕ}
    {status : LockStatus} (h : (c, status) ∈ (replay order ps).answers) :
    ∃ p, answerAt order ps p = some (c, status) := by
  induction ps using List.reverseRecOn with
  | nil => cases h
  | append_singleton ps q ih =>
    rw [replay_concat] at h
    rcases List.mem_append.mp h with hold | hnew
    · obtain ⟨p, hp⟩ := ih hold
      obtain ⟨r, hr, -⟩ := Option.bind_eq_some_iff.mp hp
      have hlt := (List.getElem?_eq_some_iff.mp hr).1
      exact ⟨p, (answerAt_of_isPrefix order (List.prefix_append ps [q]) hlt).trans hp⟩
    · refine ⟨ps.length, ?_⟩
      obtain ⟨st, hst, heq⟩ := List.mem_map.mp hnew
      have hst := Option.mem_toList.mp hst
      unfold answerAt
      rw [List.getElem?_concat_length, List.take_left]
      show Option.map _ ((replay order ps).apply ⟨order, q.call⟩ q).2 = _
      show Option.map _ (((replay order ps).table.applyCommand ⟨order, q.call⟩ q.command).2) = _
      rw [show ((replay order ps).table.applyCommand ⟨order, q.call⟩ q.command).2 = some st
        from hst, ← heq]
      rfl

end Replica

namespace LockCluster

variable {N C R Rid : Type*} [DecidableEq N] {cfg : LockConfig N C R Rid}

/-- Crashes spare `_save_state`, and no stale success is booked. -/
def clean (s : LockCluster N C R Rid) (x : Env C ℚ × LockAction N C R Rid) : Bool :=
  match x.2 with
  | .raft a => a.savesWhole && !s.raft.staleSuccess a
  | _ => true

variable [DecidableEq C] [DecidableEq R] [DecidableEq Rid] {s s' : LockCluster N C R Rid}
  {A A' : History N (Proposal C R Rid)} {i : N}

/-! ## What is decided -/

/-- The cluster agrees on its log, and the tables follow the log. -/
structure Follows (cfg : LockConfig N C R Rid) (s : LockCluster N C R Rid)
    (A : History N (Proposal C R Rid)) : Prop where
  tracked : Tracked cfg s
  consistent : Consistent LogEntry.term cfg.quorums A
  coupled : Coupled cfg.toConfig True s.raft A

theorem follows_boot (cfg : LockConfig N C R Rid) (start : N → ℚ) :
    Follows cfg (boot start : LockCluster N C R Rid) init :=
  ⟨tracked_boot cfg start, consistent_init, coupled_boot cfg.toConfig True start⟩

theorem Follows.step (h : Follows cfg s A) {x : Env C ℚ × LockAction N C R Rid}
    (hx : s.clean x = true) (hstep : s.step cfg x = some s') :
    ∃ A', Extends A A' ∧ Follows cfg s' A' := by
  have ht' := h.tracked.step hstep
  rcases raft_step hstep with hraft | ⟨a, hraft, ⟨ha, -⟩ | ⟨j, command, rfl, -⟩⟩
  · exact ⟨A, Extends.refl A, ht', h.consistent, hraft ▸ h.coupled⟩
  · unfold clean at hx
    rw [ha] at hx
    obtain ⟨hsave, hstale⟩ := Bool.and_eq_true_iff.mp hx
    obtain ⟨A', g, hA', h'⟩ := Simulated.step h.coupled h.consistent hsave
      (fun _ => by simpa using hstale) hraft
    exact ⟨A', g, ht', hA', h'⟩
  · obtain ⟨A', g, hA', h'⟩ := Simulated.step h.coupled h.consistent rfl (fun _ => rfl) hraft
    exact ⟨A', g, ht', hA', h'⟩

theorem Follows.run (h : Follows cfg s A) {xs : List (Env C ℚ × LockAction N C R Rid)}
    (hxs : s.EachStep cfg (fun t x => t.clean x = true) xs) (hrun : s.run cfg xs = some s') :
    ∃ A', Extends A A' ∧ Follows cfg s' A' := by
  induction xs generalizing s A with
  | nil => exact ⟨A, Extends.refl A, Option.some.inj hrun ▸ h⟩
  | cons x rest ih =>
    obtain ⟨t, ht, hrest⟩ := Transition.run_cons hrun
    obtain ⟨A', g, h'⟩ := h.step hxs.1 ht
    obtain ⟨A'', g', h''⟩ := ih h' (hxs.tail ht) hrest
    exact ⟨A'', g.trans g', h''⟩

/-- The commands decided at the first indices, each of a call that proposed it there. -/
def Recorded (cfg : LockConfig N C R Rid) (s : LockCluster N C R Rid)
    (A : History N (Proposal C R Rid)) (ps : List (Proposal C R Rid)) : Prop :=
  ∀ (q : ℕ) p, ps[q]? = some p → Decided cfg.toConfig A (q + 1) p ∧ s.Names (q + 1) p

/-- The commands that a node has applied. -/
def commands (s : LockCluster N C R Rid) (i : N) : List (Proposal C R Rid) :=
  (s.raft.nodes i).applied.map Prod.snd

omit [DecidableEq C] [DecidableEq R] [DecidableEq Rid] in
theorem Recorded.mono {ps : List (Proposal C R Rid)} (h : Recorded cfg s A ps)
    (hA : Consistent LogEntry.term cfg.quorums A) (g : Extends A A') (hkeep : KeepsCalls s s') :
    Recorded cfg s' A' ps :=
  fun q p hq => ⟨(h q p hq).1.mono hA g, (h q p hq).2.mono hkeep⟩

omit [DecidableEq C] [DecidableEq R] [DecidableEq Rid] in
/-- Of two lists of decided commands one begins with the other. -/
theorem Recorded.comparable {ps qs : List (Proposal C R Rid)} (h : Recorded cfg s A ps)
    (h' : Recorded cfg s A qs) (hA : Consistent LogEntry.term cfg.quorums A) :
    ps <+: qs ∨ qs <+: ps :=
  prefix_or_prefix fun q p p' hp hp' => (h q p hp).1.unique (h' q p' hp').1 hA

theorem Follows.recorded (h : Follows cfg s A) (hi : i ∈ cfg.nodes) :
    Recorded cfg s A (s.commands i) := by
  intro q p hq
  refine ⟨decided_applied h.coupled hi hq, ?_⟩
  unfold commands at hq
  rw [List.getElem?_map] at hq
  obtain ⟨x, hx, rfl⟩ := Option.map_eq_some_iff.mp hq
  rw [← Cluster.fst_of_applied h.coupled hi hx]
  exact h.tracked.applied i x (List.mem_of_getElem? hx)

theorem Follows.length_commands (h : Follows cfg s A) (hi : i ∈ cfg.nodes) :
    (s.commands i).length = (s.raft.nodes i).volatile.lastApplied := by
  have horder := ((h.coupled.nodes i hi).order trivial).1
  have hlen := congrArg List.length horder
  rw [List.length_map, List.length_range'] at hlen
  rw [commands, List.length_map, hlen]

/-! ## The tables -/

/-- What any node has applied at some moment begins what any node has applied at a later moment or
    further on, and the commands between turn the table of the one into the table of the other;
    nodes that have applied as many commands have the same locks, the same wait-for graph and gave
    the same answers. -/
theorem tables_agree {start : N → ℚ} {before after : List (Env C ℚ × LockAction N C R Rid)}
    (hclean : (boot start).EachStep cfg (fun t x => t.clean x = true) (before ++ after))
    (hs : (boot start).run cfg before = some s) (hs' : s.run cfg after = some s')
    (hi : i ∈ cfg.nodes) {j : N} (hj : j ∈ cfg.nodes)
    (hle : (s.raft.nodes i).volatile.lastApplied ≤ (s'.raft.nodes j).volatile.lastApplied) :
    (∃ ps : List (Proposal C R Rid), s'.commands j = s.commands i ++ ps ∧
      (s.raft.nodes i).volatile.lastApplied + ps.length =
        (s'.raft.nodes j).volatile.lastApplied ∧
      ∀ order, (s'.managers j).replica.mapStamp Stamp.call =
        ps.foldl (fun m p => (m.apply ⟨order, p.call⟩ p).1)
          ((s.managers i).replica.mapStamp Stamp.call)) ∧
    ((s.raft.nodes i).volatile.lastApplied = (s'.raft.nodes j).volatile.lastApplied →
      (s.managers i).replica.table.locks.map Lock.content =
          (s'.managers j).replica.table.locks.map Lock.content ∧
        (s.managers i).replica.table.deadlockDetector =
          (s'.managers j).replica.table.deadlockDetector ∧
        (s.managers i).replica.answers = (s'.managers j).replica.answers) := by
  obtain ⟨hbefore, hafter⟩ := Transition.EachStep.append hclean
  obtain ⟨A, -, h⟩ := (follows_boot cfg start).run hbefore hs
  obtain ⟨A', g, h'⟩ := h.run (hafter s hs) hs'
  have hlen := h.length_commands hi
  have hlen' := h'.length_commands hj
  have hrec := (h.recorded hi).mono h.consistent g (keepsCalls_run hs')
  have hprefix : s.commands i <+: s'.commands j := by
    rcases hrec.comparable (h'.recorded hj) h'.consistent with hp | hp
    · exact hp
    · rw [hp.eq_of_length_le (by omega)]
  obtain ⟨ps, hps⟩ := hprefix
  have htable : ∀ order, (s'.managers j).replica.mapStamp Stamp.call =
      ps.foldl (fun m p => (m.apply ⟨order, p.call⟩ p).1)
        ((s.managers i).replica.mapStamp Stamp.call) := by
    intro order
    have heq' := h'.tracked.replicas j order
    rw [show (s'.raft.nodes j).applied.map Prod.snd = s.commands i ++ ps from hps.symm] at heq'
    rw [heq', h.tracked.replicas i order]
    unfold Replica.replay
    rw [List.foldl_append]
    rfl
  have hcount := congrArg List.length hps
  rw [List.length_append] at hcount
  refine ⟨⟨ps, hps.symm, by omega, htable⟩, fun heq => ?_⟩
  have hnil : ps = [] := List.length_eq_zero_iff.mp (by omega)
  have hsame := htable default
  rw [hnil] at hsame
  have hcontent := congrArg (fun m : Replica C R ℕ => m.table.locks.map Lock.content) hsame
  have hmap : ∀ t : LockTable C R Stamp,
      (t.mapStamp Stamp.call).locks.map Lock.content = t.locks.map Lock.content := by
    intro t
    apply Dict.eq_of_items
    simp only [LockTable.mapStamp, Dict.map, List.map_map, Function.comp_def,
      Lock.content_mapStamp]
  refine ⟨?_, ?_, ?_⟩
  · rw [← hmap, ← hmap]
    exact hcontent.symm
  · exact congrArg (fun m : Replica C R ℕ => m.table.deadlockDetector) hsame.symm
  · exact congrArg (fun m : Replica C R ℕ => m.answers) hsame.symm

/-- Node 0 leads, client 0 acquires resource 0 there, and node 1 takes the entry over. -/
def acquiredOnLeader : List (Env (Fin 2) ℚ × LockAction (Fin 3) (Fin 2) (Fin 2) RequestId) :=
  amongThree 1 [.raft (.electionTimeout 0 (1 / 5) 1), .raft (.deliver 0 1),
    .raft (.resumeHandler 0 1), .raft (.electionEnds 0 [1]), .raft (.becameLeader 0),
    .acquireLock 0 0 0 .exclusive] ++ answered

/-- Node 1 learns from the heartbeat that the entry is committed, node 2 has not heard of it. -/
def followerApplies : List (Env (Fin 2) ℚ × LockAction (Fin 3) (Fin 2) (Fin 2) RequestId) :=
  amongThree 3 [.proposed 0, .raft (.heartbeat 0), .raft (.deliver 4 3),
    .raft (.resumeHandler 4 3)]

theorem tables_agree_followerApplies :
    ∃ s s' : LockCluster (Fin 3) (Fin 2) (Fin 2) RequestId,
      (s.raft.nodes 0).volatile.lastApplied = 1 ∧
      (s.managers 0).replica.table.locks.map Lock.content =
        (s'.managers 1).replica.table.locks.map Lock.content ∧
      ∃ ps, s'.commands 1 = s.commands 2 ++ ps ∧ ps.length = 1 := by
  have hclean : (boot fun _ => 0).EachStep threeLocks (fun t x => t.clean x = true)
      (acquiredOnLeader ++ followerApplies) := by
    decide +kernel
  have hrun : ((boot fun _ => 0).run threeLocks acquiredOnLeader).any (fun s =>
      decide ((s.raft.nodes 0).volatile.lastApplied = 1) &&
        decide ((s.raft.nodes 2).volatile.lastApplied = 0) &&
        (s.run threeLocks followerApplies).any fun s' =>
          decide ((s'.raft.nodes 1).volatile.lastApplied = 1)) = true := by
    decide +kernel
  obtain ⟨s, hs, hrest⟩ := (Option.any_eq_true _ _).mp hrun
  obtain ⟨hnow, hrest⟩ := Bool.and_eq_true_iff.mp hrest
  obtain ⟨hone, hzero⟩ := Bool.and_eq_true_iff.mp hnow
  obtain ⟨s', hs', hone'⟩ := (Option.any_eq_true _ _).mp hrest
  have hone := of_decide_eq_true hone
  have hzero := of_decide_eq_true hzero
  have hone' := of_decide_eq_true hone'
  have heq := hone.trans hone'.symm
  obtain ⟨ps, hps, hlen, -⟩ :=
    (tables_agree hclean hs hs' (i := 2) (j := 1) (by decide) (by decide) (by omega)).1
  exact ⟨s, s', hone, ((tables_agree hclean hs hs' (by decide) (by decide) heq.le).2 heq).1,
    ps, hps, by omega⟩

/-! ## Answers to callers -/

/-- `acquire_lock` has told its caller what a table answered. -/
def Told (s : LockCluster N C R Rid) (k : ℕ) (status : LockStatus) : Prop :=
  (status = .acquired ∨ status = .deadlock) ∧ ∃ call lockType, s.calls[k]? = some call ∧
    call.args.op = .acquire lockType ∧ call.stage = .returned status

/-- The call that proposed for call `k` proposed at position `p`, where the table answers it with
    the status. -/
def TakesEffect (s : LockCluster N C R Rid) (ps : List (Proposal C R Rid)) (k : ℕ)
    (status : LockStatus) (p : ℕ) : Prop :=
  ∃ c call, s.OnBehalf k c ∧ s.calls[c]? = some call ∧ call.args.index = some (p + 1) ∧
    ps[p]? = some ⟨c, call.args.command⟩ ∧
    ∀ order, Replica.answerAt order ps p = some (c, status)

omit [DecidableEq N] [DecidableEq C] [DecidableEq R] [DecidableEq Rid] in
theorem Told.unique {k : ℕ} {status status' : LockStatus} (h : s.Told k status)
    (h' : s.Told k status') : status = status' := by
  obtain ⟨-, call, lockType, hk, -, hr⟩ := h
  obtain ⟨-, call', lockType', hk', -, hr'⟩ := h'
  obtain rfl := Option.some.inj (hk.symm.trans hk')
  exact CallStage.returned.inj (hr.symm.trans hr')

/-- A call is handled by later calls. -/
def Later (s : LockCluster N C R Rid) : Prop := ∀ k c, s.Child k c → k < c

omit [DecidableEq N] [DecidableEq C] [DecidableEq R] [DecidableEq Rid] in
theorem Later.of_outlines (h : s.Later) (heq : s'.outlines = s.outlines) : s'.Later := by
  rintro k c ⟨call', target, hk, hm⟩
  obtain ⟨call, hcall, hout⟩ := exists_outline heq hk
  exact h k c ⟨call, target, hcall, (congrArg (·.2.2) hout).trans hm⟩

omit [DecidableEq N] [DecidableEq C] [DecidableEq R] [DecidableEq Rid] in
theorem Later.setStage (h : s.Later) {k : ℕ} {call : Call N C R Rid} (hk : s.calls[k]? = some call)
    (hcalls : s'.calls = s.calls) (stage : CallStage) : (s'.setStage k call stage).Later := by
  rintro j c ⟨other, target, hj, hm⟩
  rcases getElem?_set_cases hj with ⟨rfl, rfl⟩ | ⟨-, hold⟩
  · exact h j c ⟨call, target, hk, hm⟩
  · exact h j c ⟨other, target, hcalls ▸ hold, hm⟩

theorem Later.started (h : s.Later) {env : Env C ℚ} {i : N} {op : LockOp} {c : C} {r : R}
    (hs : Started cfg s env i op c r s') : s'.Later := by
  have hadd : ∀ {t : LockCluster N C R Rid} {call : Call N C R Rid},
      t.calls = s.calls ++ [call] → (∀ target j, call.message ≠ some (target, .handled j)) →
      t.Later := by
    rintro t call hcalls hmessage k j ⟨other, target, hk, hm⟩
    rcases getElem?_concat_cases (hcalls ▸ hk) with hold | ⟨-, rfl⟩
    · exact h k j ⟨other, target, hold, hm⟩
    · exact absurd hm (hmessage target j)
  cases hs with
  | proposes =>
    refine Later.of_outlines (hadd (t := { s.proposing env _ with raft := _ })
      (calls_proposing s env _) fun target j hm => by cases hm) (outlines_callbacks env i _ _ _)
  | forwards => exact hadd rfl fun target j hm => by cases hm
  | denied => exact hadd rfl fun target j hm => by cases hm

theorem Later.step (h : s.Later) {x : Env C ℚ × LockAction N C R Rid}
    (hstep : s.step cfg x = some s') : s'.Later := by
  cases stepped hstep with
  | raft => exact h.of_outlines (outlines_callbacks _ _ _ _ _)
  | restart =>
    rintro k c ⟨call', target, hk, hm⟩
    obtain ⟨call, hcall, ⟨-, rfl⟩ | ⟨-, rfl⟩⟩ := exists_restart hk
    · exact h k c ⟨call, target, hcall, (call.message_crash).symm.trans hm⟩
    · exact h k c ⟨call', target, hcall, hm⟩
  | acquireLock hs => exact h.started hs
  | releaseLock hs => exact h.started hs
  | @proposed env k task call hk hstage =>
    unfold proposed
    split
    · exact h.setStage hk rfl _
    · split
      · exact h.setStage hk (by cases call.args.requestId <;> rfl) _
      · exact h.setStage hk rfl _
  | proposeRaises hk => exact h.setStage hk rfl _
  | @wake env k call result hk =>
    exact h.setStage hk (by cases call.args.requestId <;> rfl) _
  | @timeout env k call hk => exact h.setStage hk (by cases call.args.requestId <;> rfl) _
  | @deliver env k call target s' hk hmessage hs =>
    obtain ⟨call', hk', -⟩ := outline_started hs hk
    rintro j c ⟨other, target', hj, hm⟩
    rw [setDelivery_eq hk'] at hj
    rcases getElem?_set_cases hj with ⟨rfl, rfl⟩ | ⟨-, hold⟩
    · -- the call whose message is delivered gets the call that starts
      have hlt := (List.getElem?_eq_some_iff.mp hk).1
      simp only [Call.setDelivery, Option.map_eq_some_iff, Prod.mk.injEq,
        Delivery.handled.injEq] at hm
      obtain ⟨-, -, -, rfl⟩ := hm
      exact hlt
    · exact h.started hs j c ⟨other, target', hold, hm⟩
  | @lose env k call target hk hmessage =>
    rintro j c ⟨other, target', hj, hm⟩
    rw [setDelivery_eq hk] at hj
    rcases getElem?_set_cases hj with ⟨rfl, rfl⟩ | ⟨-, hold⟩
    · simp only [Call.setDelivery, Option.map_eq_some_iff, Prod.mk.injEq, reduceCtorEq,
        and_false, exists_false] at hm
    · exact h j c ⟨other, target', hold, hm⟩
  | response hk => exact h.setStage hk rfl _
  | noResponse hk => exact h.setStage hk rfl _

/-- The answers that callers were told are answers of the decided list. -/
structure Linear (cfg : LockConfig N C R Rid) (s : LockCluster N C R Rid)
    (A : History N (Proposal C R Rid)) : Prop extends Follows cfg s A where
  later : s.Later
  told : ∀ k status, s.Told k status → ∃ c ps, s.OnBehalf k c ∧ Recorded cfg s A ps ∧
    ((c, status) ∈ (Replica.replay default ps).answers ∨ s.Collides c)

theorem linear_boot (cfg : LockConfig N C R Rid) (start : N → ℚ) :
    Linear cfg (boot start : LockCluster N C R Rid) init where
  toFollows := follows_boot cfg start
  later := by
    rintro k c ⟨call, target, hk, -⟩
    cases hk
  told := by
    rintro k status ⟨-, call, lockType, hk, -⟩
    cases hk

/-- The future of a pending call holds what the table of its node answered. -/
theorem Linear.of_future (h : Linear cfg s A) {k : ℕ} {call : Call N C R Rid}
    {status : LockStatus} (hst : status = .acquired ∨ status = .deadlock)
    (hk : s.calls[k]? = some call) (hp : call.Pending) (hf : call.future = some status) :
    ∃ c ps, s.OnBehalf k c ∧ Recorded cfg s A ps ∧
      ((c, status) ∈ (Replica.replay default ps).answers ∨ s.Collides c) := by
  have hi := h.tracked.bookkeeping.nodes k call hk
  refine ⟨k, s.commands call.args.node, .refl, h.toFollows.recorded hi, ?_⟩
  rcases h.tracked.bookkeeping.futures k call status hk hp hf with rfl | ⟨-, hres⟩
  · rcases hst with hst | hst <;> cases hst
  · exact hres.imp_left fun hans => h.tracked.answers_eq call.args.node default ▸ hans

theorem Linear.step (h : Linear cfg s A) {x : Env C ℚ × LockAction N C R Rid}
    (hx : s.clean x = true) (hstep : s.step cfg x = some s') :
    ∃ A', Extends A A' ∧ Linear cfg s' A' := by
  obtain ⟨A', g, h'⟩ := h.toFollows.step hx hstep
  have hkeep := keepsCalls_step hstep
  refine ⟨A', g, h', h.later.step hstep, ?_⟩
  rintro k status ⟨hst, call', lockType, hk', hop, hr⟩
  -- it is enough that the answer was there before the step
  suffices hbefore : ∃ c ps, s.OnBehalf k c ∧ Recorded cfg s A ps ∧
      ((c, status) ∈ (Replica.replay default ps).answers ∨ s.Collides c) by
    obtain ⟨c, ps, hb, hps, hans⟩ := hbefore
    exact ⟨c, ps, hb.mono hkeep, hps.mono h.consistent g hkeep,
      hans.imp_right fun hcol => hcol.mono hkeep⟩
  rcases returnedIn_step hstep k call' status hk' hr with ⟨call, hk, hret⟩ | hdenied
  · obtain ⟨other, hother, hkept⟩ := hkeep k call hk
    obtain rfl := Option.some.inj (hk'.symm.trans hother)
    rw [hkept.args] at hop
    rcases hret with hold | hret
    · exact h.told k status ⟨hst, call, lockType, hk, hop, hold⟩
    · obtain ⟨env, a⟩ := x
      cases hret with
      | proposed _ hstage hf => exact h.of_future hst hk (Or.inr ⟨_, hstage⟩) hf
      | released hrel =>
        rw [hop] at hrel
        cases hrel
      | wake hstage hf => exact h.of_future hst hk (Or.inl hstage) hf
      | timeout => rcases hst with hst | hst <;> cases hst
      | @response target j child _ hstage hmessage hj hchild =>
        obtain ⟨child', hchild', hop'⟩ :=
          h.tracked.bookkeeping.children k call target j hk hmessage
        obtain rfl := Option.some.inj (hj.symm.trans hchild')
        obtain ⟨c, ps, hb, hrest⟩ :=
          h.told j status ⟨hst, child, lockType, hj, hop'.trans hop, hchild⟩
        exact ⟨c, ps, .head ⟨call, target, hk, hmessage⟩ hb, hrest⟩
      | noResponse => rcases hst with hst | hst <;> cases hst
  · rw [hdenied.status] at hr
    obtain rfl := CallStage.returned.inj hr
    rcases hst with hst | hst <;> cases hst

theorem Linear.run (h : Linear cfg s A) {xs : List (Env C ℚ × LockAction N C R Rid)}
    (hxs : s.EachStep cfg (fun t x => t.clean x = true) xs) (hrun : s.run cfg xs = some s') :
    ∃ A', Extends A A' ∧ Linear cfg s' A' := by
  induction xs generalizing s A with
  | nil => exact ⟨A, Extends.refl A, Option.some.inj hrun ▸ h⟩
  | cons x rest ih =>
    obtain ⟨t, ht, hrest⟩ := Transition.run_cons hrun
    obtain ⟨A', g, h'⟩ := h.step hxs.1 ht
    obtain ⟨A'', g', h''⟩ := ih h' (hxs.tail ht) hrest
    exact ⟨A'', g.trans g', h''⟩

omit [DecidableEq N] [DecidableEq C] [DecidableEq R] in
/-- Only one of the calls on behalf of a call proposes. -/
theorem Bookkeeping.proposer_unique (h : Bookkeeping cfg s) {k c c' : ℕ}
    {call call' : Call N C R Rid} (hb : s.OnBehalf k c) (hb' : s.OnBehalf k c')
    (hc : s.calls[c]? = some call) (hc' : s.calls[c']? = some call')
    (hindex : call.args.index.isSome = true) (hindex' : call'.args.index.isSome = true) :
    c = c' := by
  have hlast : ∀ {c d : ℕ} {call : Call N C R Rid}, s.calls[c]? = some call →
      call.args.index.isSome = true → s.OnBehalf c d → d = c := by
    intro c d call hc hindex hb
    refine hb.eq_of_message hc ?_
    cases hm : call.message with
    | none => rfl
    | some m =>
      rw [h.messages c call hc (by rw [hm]; rfl)] at hindex
      cases hindex
  have hchild : Relator.RightUnique s.Child := by
    rintro a b b' ⟨x, t, hx, hm⟩ ⟨x', t', hx', hm'⟩
    obtain rfl := Option.some.inj (hx.symm.trans hx')
    rw [hm] at hm'
    obtain ⟨-, heq⟩ := Prod.mk.inj (Option.some.inj hm')
    exact Delivery.handled.inj heq
  rcases Relation.ReflTransGen.total_of_right_unique hchild hb hb' with hcc | hcc
  · exact (hlast hc hindex hcc).symm
  · exact hlast hc' hindex' hcc

omit [DecidableEq N] [DecidableEq C] [DecidableEq R] [DecidableEq Rid] in
theorem Later.le (h : s.Later) {k c : ℕ} (hb : s.OnBehalf k c) : k ≤ c := by
  induction hb with
  | refl => exact le_rfl
  | tail _ hchild ih => exact ih.trans (h _ _ hchild).le

omit [DecidableEq Rid] in
/-- A recorded answer to a call takes effect where the call's command stands. -/
theorem Recorded.takesEffect {ps qs : List (Proposal C R Rid)} (h : Recorded cfg s A qs)
    (hqs : qs <+: ps) {k c : ℕ} {status : LockStatus} (hb : s.OnBehalf k c)
    (hans : (c, status) ∈ (Replica.replay default qs).answers) :
    ∃ p, p < qs.length ∧ s.TakesEffect ps k status p := by
  obtain ⟨p, hp⟩ := Replica.exists_answerAt hans
  obtain ⟨q, hq, hst⟩ := Option.bind_eq_some_iff.mp hp
  obtain ⟨st, -, heq⟩ := Option.map_eq_some_iff.mp hst
  obtain ⟨rfl, rfl⟩ := Prod.mk.inj heq
  obtain ⟨call, hcall, hindex, hcommand⟩ := (h p q hq).2
  have hlt := (List.getElem?_eq_some_iff.mp hq).1
  have hq' : ps[p]? = some q := getElem?_of_isPrefix hqs hq
  refine ⟨p, hlt, q.call, call, hb, hcall, hindex, by rw [hcommand]; exact hq', fun order => ?_⟩
  rw [Replica.answerAt_of_isPrefix order hqs hlt, Replica.answerAt_order order default]
  exact hp

/-- The list behind the answer that each call has told. -/
theorem Linear.exists_lists (h : Linear cfg s A) (hids : s.DistinctIds) (k : ℕ) :
    ∃ qs, Recorded cfg s A qs ∧ ∀ status, s.Told k status →
      ∃ c, s.OnBehalf k c ∧ (c, status) ∈ (Replica.replay default qs).answers := by
  by_cases htold : ∃ status, s.Told k status
  · obtain ⟨status, htold⟩ := htold
    obtain ⟨c, qs, hb, hqs, hans⟩ := h.told k status htold
    refine ⟨qs, hqs, fun status' htold' => ⟨c, hb, ?_⟩⟩
    rw [htold'.unique htold]
    exact hans.resolve_right (hids.not_collides c)
  · refine ⟨[], fun q p hq => ?_, fun status hst => absurd ⟨status, hst⟩ htold⟩
    rw [List.getElem?_nil] at hq
    cases hq

/-- One list begins with the commands of every node and explains every answer. -/
theorem Linear.exists_list (h : Linear cfg s A) (hids : s.DistinctIds) :
    ∃ ps, Recorded cfg s A ps ∧ (∀ i ∈ cfg.nodes, s.commands i <+: ps) ∧
      ∀ k status, s.Told k status → ∃ p, s.TakesEffect ps k status p := by
  choose lists hrec hlists using h.exists_lists hids
  have hmem : ∀ x ∈ cfg.nodes.map s.commands ++ (List.range s.calls.length).map lists,
      Recorded cfg s A x := by
    intro x hx
    rcases List.mem_append.mp hx with hx | hx
    · obtain ⟨i, hi, rfl⟩ := List.mem_map.mp hx
      exact h.toFollows.recorded hi
    · obtain ⟨k, -, rfl⟩ := List.mem_map.mp hx
      exact hrec k
  -- the longest of the lists of all nodes and all answers
  obtain ⟨ps, hps, hall⟩ := exists_longest fun x hx y hy =>
    (hmem x hx).comparable (hmem y hy) h.consistent
  refine ⟨ps, ?_, fun i hi => hall _ (List.mem_append_left _ (List.mem_map_of_mem hi)),
    fun k status htold => ?_⟩
  · rcases hps with rfl | hps
    · intro q p hq
      rw [List.getElem?_nil] at hq
      cases hq
    · exact hmem ps hps
  · obtain ⟨c, hb, hans⟩ := hlists k status htold
    obtain ⟨-, call, lockType, hk, -⟩ := id htold
    have hk := List.mem_range.mpr (List.getElem?_eq_some_iff.mp hk).1
    have hprefix := hall _ (List.mem_append_right _ (List.mem_map_of_mem hk))
    obtain ⟨p, -, hp⟩ := (hrec k).takesEffect hprefix hb hans
    exact ⟨p, hp⟩

/-- A call that starts after another one has returned has the later place. -/
theorem Linear.place_lt (h : Linear cfg s A) (h' : Linear cfg s' A') (g : Extends A A')
    (hkeep : KeepsCalls s s') (hids : s'.DistinctIds) {ps : List (Proposal C R Rid)}
    (hps : Recorded cfg s' A' ps) {k k' p p' : ℕ} {status status' : LockStatus}
    (htold : s.Told k status) (hlate : s.calls.length ≤ k')
    (heffect : s'.TakesEffect ps k status p) (heffect' : s'.TakesEffect ps k' status' p') :
    p < p' := by
  obtain ⟨c, call, hb, hc, hindex, -⟩ := heffect
  obtain ⟨c', call', hb', hc', -, hp', -⟩ := heffect'
  -- what was told in `s` stands in a list whose commands were all proposed before `s`
  obtain ⟨d, qs, hbd, hqs, hans | hcol⟩ := h.told k status htold
  · obtain ⟨q, hq, e, calle, hbe, he, hindexe, hqe, -⟩ :=
      hqs.takesEffect List.prefix_rfl hbd hans
    obtain ⟨calle', he', hkept⟩ := hkeep e calle he
    obtain rfl := h'.tracked.bookkeeping.proposer_unique hb (hbe.mono hkeep) hc he'
      (by rw [hindex]; rfl) (by rw [hkept.args, hindexe]; rfl)
    obtain rfl := Option.some.inj (hc.symm.trans he')
    rw [hkept.args, hindexe] at hindex
    have hpq : q = p := Nat.succ.inj (Option.some.inj hindex)
    by_contra hle
    obtain ⟨r, hr⟩ : ∃ r, qs[p']? = some r := ⟨_, List.getElem?_eq_getElem (by omega)⟩
    obtain ⟨known, hknown, -⟩ := (hqs p' r hr).2
    have hold := (List.getElem?_eq_some_iff.mp hknown).1
    have hdecided := ((hqs p' r hr).1.mono h.consistent g).unique (hps p' _ hp').1 h'.consistent
    have hsame : r.call = c' := congrArg Proposal.call hdecided
    have := h'.later.le hb'
    omega
  · exact absurd (hcol.mono hkeep) (hids.not_collides d)

/-- Behind the lock tables of all nodes and all answers ACQUIRED and DEADLOCK is one list of
    commands: every table is the table after a part of it, every answer is the answer to the
    caller's command in its place, and the place of a call that started after another one had
    returned comes later. -/
theorem acquires_linearizable {start : N → ℚ}
    {before after : List (Env C ℚ × LockAction N C R Rid)}
    (hclean : (boot start).EachStep cfg (fun t x => t.clean x = true) (before ++ after))
    (hs : (boot start).run cfg before = some s) (hs' : s.run cfg after = some s')
    (hids : s'.DistinctIds) :
    ∃ ps : List (Proposal C R Rid),
      (∀ i ∈ cfg.nodes, ∀ order, (s'.managers i).replica.mapStamp Stamp.call =
        Replica.replay order (ps.take (s'.raft.nodes i).volatile.lastApplied)) ∧
      (∀ k status, s'.Told k status → ∃ p, s'.TakesEffect ps k status p) ∧
      ∀ k status k' status' p p', s.Told k status → s.calls.length ≤ k' →
        s'.TakesEffect ps k status p → s'.TakesEffect ps k' status' p' → p < p' := by
  obtain ⟨hbefore, hafter⟩ := Transition.EachStep.append hclean
  obtain ⟨A, -, h⟩ := (linear_boot cfg start).run hbefore hs
  obtain ⟨A', g, h'⟩ := h.run (hafter s hs) hs'
  obtain ⟨ps, hps, hbegins, heffect⟩ := h'.exists_list hids
  refine ⟨ps, fun i hi order => ?_, heffect, fun k status k' status' p p' htold hlate =>
    h.place_lt h' g (keepsCalls_run hs') hids hps htold hlate⟩
  rw [h'.tracked.replicas i order, ← h'.toFollows.length_commands hi,
    ← List.prefix_iff_eq_take.mp (hbegins i hi)]
  rfl

theorem acquires_linearizable_refusal :
    ∃ (s s' : LockCluster (Fin 1) (Fin 2) (Fin 2) RequestId) (ps : List (Proposal _ _ _))
      (p p' : ℕ),
      s.Told 1 .acquired ∧ s'.Told 3 .deadlock ∧ s'.TakesEffect ps 1 .acquired p ∧
      s'.TakesEffect ps 3 .deadlock p' ∧ p < p' := by
  have hclean : (boot fun _ => 0).EachStep oneNode (fun t x => t.clean x = true)
      (refusal.take 9 ++ refusal.drop 9) := by
    decide +kernel
  have hrun : ((boot fun _ => 0).run oneNode (refusal.take 9)).any (fun s =>
      (s.calls[1]?).any (fun call => decide (call.args.op = .acquire .exclusive) &&
          decide (call.stage = .returned .acquired)) &&
        decide (s.calls.length = 2) && (s.run oneNode (refusal.drop 9)).any fun s' =>
          decide s'.DistinctIds && (s'.calls[3]?).any fun call =>
            decide (call.args.op = .acquire .exclusive) &&
              decide (call.stage = .returned .deadlock)) = true := by
    decide +kernel
  obtain ⟨s, hs, hrest⟩ := (Option.any_eq_true _ _).mp hrun
  obtain ⟨hcall, hrest⟩ := Bool.and_eq_true_iff.mp hrest
  obtain ⟨hcall, hlen⟩ := Bool.and_eq_true_iff.mp hcall
  obtain ⟨call, hk, hcall⟩ := (Option.any_eq_true _ _).mp hcall
  obtain ⟨hop, hstage⟩ := Bool.and_eq_true_iff.mp hcall
  obtain ⟨s', hs', hrest⟩ := (Option.any_eq_true _ _).mp hrest
  obtain ⟨hids, hcall'⟩ := Bool.and_eq_true_iff.mp hrest
  obtain ⟨call', hk', hcall'⟩ := (Option.any_eq_true _ _).mp hcall'
  obtain ⟨hop', hstage'⟩ := Bool.and_eq_true_iff.mp hcall'
  have htold : s.Told 1 .acquired := ⟨Or.inl rfl, call, .exclusive, hk, of_decide_eq_true hop,
    of_decide_eq_true hstage⟩
  have htold' : s'.Told 3 .deadlock := ⟨Or.inr rfl, call', .exclusive, hk', of_decide_eq_true hop',
    of_decide_eq_true hstage'⟩
  obtain ⟨other, hother, hkept⟩ := keepsCalls_run hs' 1 call hk
  have hlater : s'.Told 1 .acquired := ⟨Or.inl rfl, other, .exclusive, hother,
    by rw [hkept.args]; exact of_decide_eq_true hop,
    hkept.returned _ (of_decide_eq_true hstage)⟩
  obtain ⟨ps, -, heffect, horder⟩ :=
    acquires_linearizable hclean hs hs' (of_decide_eq_true hids)
  obtain ⟨p, hp⟩ := heffect 1 _ hlater
  obtain ⟨p', hp'⟩ := heffect 3 _ htold'
  have hlen := of_decide_eq_true hlen
  exact ⟨s, s', ps, p, p', htold, htold', hp, hp', horder 1 _ 3 _ p p' htold (by omega) hp hp'⟩

end LockCluster

end Pynchronize
