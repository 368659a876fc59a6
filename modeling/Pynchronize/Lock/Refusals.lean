import Pynchronize.Lock.Replies
import Pynchronize.Raft.Simulation

/-!
# What is left of a refused request

A call that returns TIMEOUT, DENIED or DEADLOCK leaves nothing behind if its
command is in no log when it gives up, or was answered DEADLOCK: what a node
answered, every node answers. `Agrees` is the invariant.
-/

namespace Pynchronize.LockCluster

open Lib Lib.Replication

variable {N C R Rid : Type*}

/-! ## Calls on behalf of a call -/

/-- The LOCK_REQUEST of call `k` was handled by call `c`. -/
def Child (s : LockCluster N C R Rid) (k c : ℕ) : Prop :=
  ∃ call target, s.calls[k]? = some call ∧ call.message = some (target, .handled c)

/-- Call `c` works for the caller of call `k`. -/
def OnBehalf (s : LockCluster N C R Rid) (k c : ℕ) : Prop := Relation.ReflTransGen s.Child k c

/-- `acquire_lock` has told its caller that it did not get the lock. -/
def ToldNo (s : LockCluster N C R Rid) (k : ℕ) : Prop :=
  ∃ call lockType status, s.calls[k]? = some call ∧ call.args.op = .acquire lockType ∧
    call.stage = .returned status ∧ (status = .timeout ∨ status = .denied ∨ status = .deadlock)

/-- The request of call `c` is in a waiting list of node `i`. -/
def Waits [DecidableEq R] (s : LockCluster N C R Rid) (i : N) (c : ℕ) : Prop :=
  ∃ r, ∃ req ∈ (s.managers i).replica.table.waiting r, req.timestamp.call = c

/-- Node `i` has granted the request of call `c`, at once or from a waiting list. -/
def Granted (s : LockCluster N C R Rid) (i : N) (c : ℕ) : Prop :=
  (c, .acquired) ∈ (s.managers i).replica.answers ∨
    ∃ req ∈ (s.managers i).replica.served, req.timestamp.call = c

theorem Child.mono {s s' : LockCluster N C R Rid} {k c : ℕ} (h : s.Child k c)
    (hkeep : KeepsCalls s s') : s'.Child k c := by
  obtain ⟨call, target, hk, hmessage⟩ := h
  obtain ⟨call', hk', hkept⟩ := hkeep k call hk
  refine ⟨call', target, hk', (hkept.message ?_).trans hmessage⟩
  rintro ⟨other, hother⟩
  rw [hmessage] at hother
  cases hother

theorem OnBehalf.mono {s s' : LockCluster N C R Rid} {k c : ℕ} (h : s.OnBehalf k c)
    (hkeep : KeepsCalls s s') : s'.OnBehalf k c :=
  Relation.ReflTransGen.mono (fun _ _ hc => Child.mono hc hkeep) _ _ h

theorem ToldNo.mono {s s' : LockCluster N C R Rid} {k : ℕ} (h : s.ToldNo k)
    (hkeep : KeepsCalls s s') : s'.ToldNo k := by
  obtain ⟨call, lockType, status, hk, hop, hr, hno⟩ := h
  obtain ⟨call', hk', hkept⟩ := hkeep k call hk
  exact ⟨call', lockType, status, hk', by rw [hkept.args]; exact hop, hkept.returned status hr, hno⟩

/-- A call without a handled message works for itself alone. -/
theorem OnBehalf.eq_of_message {s : LockCluster N C R Rid} {k c : ℕ} {call : Call N C R Rid}
    (h : s.OnBehalf k c) (hk : s.calls[k]? = some call) (hmessage : call.message = none) :
    c = k := by
  rcases Relation.ReflTransGen.cases_head h with rfl | ⟨j, ⟨call', target, hk', hm⟩, -⟩
  · rfl
  · obtain rfl := Option.some.inj (hk.symm.trans hk')
    rw [hmessage] at hm
    cases hm

theorem OnBehalf.lt_length [DecidableEq Rid] {cfg : LockConfig N C R Rid}
    {s : LockCluster N C R Rid} (hb : Bookkeeping cfg s) {k c : ℕ} (h : s.OnBehalf k c)
    (hk : k < s.calls.length) : c < s.calls.length := by
  rcases Relation.ReflTransGen.cases_tail h with rfl | ⟨j, -, call, target, hj, hm⟩
  · exact hk
  · obtain ⟨child, hchild, -⟩ := hb.children j call target c hj hm
    exact (List.getElem?_eq_some_iff.mp hchild).1

/-- A call that has sent nothing that is still under way gets no new child. -/
theorem child_of_keeps {s s' : LockCluster N C R Rid} (hkeep : KeepsCalls s s') {k c : ℕ}
    (hlt : k < s.calls.length) (hsilent : ∀ call, s.calls[k]? = some call → ¬ call.Sending)
    (h : s'.Child k c) : s.Child k c := by
  have hk : s.calls[k]? = some (s.calls.get ⟨k, hlt⟩) := List.getElem?_eq_getElem hlt
  obtain ⟨call, hk', hkept⟩ := hkeep k _ hk
  obtain ⟨call', target, hcall', hm⟩ := h
  obtain rfl := Option.some.inj (hk'.symm.trans hcall')
  exact ⟨_, target, hk, (hkept.message (hsilent _ hk)).symm.trans hm⟩

theorem silent_of_message {s : LockCluster N C R Rid} {k : ℕ} {call : Call N C R Rid}
    (hk : s.calls[k]? = some call) (h : ∀ target, call.message ≠ some (target, .inFlight)) :
    ∀ other, s.calls[k]? = some other → ¬ other.Sending := by
  rintro other hother ⟨target, hm⟩
  obtain rfl := Option.some.inj (hk.symm.trans hother)
  exact h target hm

/-! ## When a call leaves nothing behind -/

/-- The command of call `c` is in a log or under way to one. -/
def Logged (s : LockCluster N C R Rid) (c : ℕ) : Prop :=
  ∃ p e, s.raft.Carries p e ∧ e.command.call = c

/-- Nothing of the request of call `c` can have an effect any more. -/
def Withdrawn (cfg : LockConfig N C R Rid) (s : LockCluster N C R Rid) (c : ℕ) : Prop :=
  (∀ call, s.calls[c]? = some call → ¬ call.Sending) ∧
    (¬ s.Logged c ∨ ∃ i ∈ cfg.nodes, (c, .deadlock) ∈ (s.managers i).replica.answers)

/-- The call returns TIMEOUT, or DENIED for a lost leadership or a lost response. -/
def GivesUp (k : ℕ) (call : Call N C R Rid) (a : LockAction N C R Rid) : Prop :=
  a = .timeout k ∨ a = .noResponse k ∨
    ((a = .wake k ∨ a = .proposed k) ∧ call.future = some .denied)

variable [DecidableEq N] {cfg : LockConfig N C R Rid}

/-- A step after which the cluster still agrees on its log, and in which no `acquire_lock` gives up
    before all that it started is withdrawn, nor takes the DEADLOCK of another call for its own. -/
structure Withdraws (cfg : LockConfig N C R Rid) (s : LockCluster N C R Rid)
    (x : Env C ℚ × LockAction N C R Rid) : Prop where
  raft : ∀ a, x.2 = .raft a → a.savesWhole = true ∧ s.raft.staleSuccess a = false
  givesUp : ∀ (k : ℕ) call lockType, s.calls[k]? = some call →
    call.args.op = .acquire lockType → GivesUp k call x.2 → ∀ c, s.OnBehalf k c → s.Withdrawn cfg c
  own : ∀ (k : ℕ) call, s.calls[k]? = some call → x.2 = .wake k ∨ x.2 = .proposed k →
    call.future = some .deadlock → ¬ s.Collides k

variable [DecidableEq C] [DecidableEq R] [DecidableEq Rid]

/-! ## Answers that all nodes give -/

/-- The decided commands up to some index refuse the request of call `c`. -/
def Overruled (cfg : LockConfig N C R Rid) (A : History N (Proposal C R Rid)) (c : ℕ) : Prop :=
  ∃ ps : List (Proposal C R Rid),
    (∀ (q : ℕ) p, ps[q]? = some p → Decided cfg.toConfig A (q + 1) p) ∧
      (ps.map Proposal.call).Nodup ∧ (c, .deadlock) ∈ (Replica.replay default ps).answers

omit [DecidableEq Rid] in
theorem Overruled.mono {A A' : History N (Proposal C R Rid)} {c : ℕ} (h : Overruled cfg A c)
    (hA : Consistent LogEntry.term cfg.quorums A) (g : Extends A A') : Overruled cfg A' c := by
  obtain ⟨ps, hps, hnodup, hans⟩ := h
  exact ⟨ps, fun q p hq => (hps q p hq).mono hA g, hnodup, hans⟩

section Coupled

variable {s : LockCluster N C R Rid} {A : History N (Proposal C R Rid)} {i : N} {c : ℕ}

omit [DecidableEq C] [DecidableEq R] [DecidableEq Rid] in
/-- What a node applied, in order, is what was decided. -/
theorem decided_applied (h : Coupled cfg.toConfig True s.raft A) (hi : i ∈ cfg.nodes) {q : ℕ}
    {p : Proposal C R Rid} (hq : ((s.raft.nodes i).applied.map Prod.snd)[q]? = some p) :
    Decided cfg.toConfig A (q + 1) p := by
  rw [List.getElem?_map] at hq
  obtain ⟨x, hx, rfl⟩ := Option.map_eq_some_iff.mp hq
  have horder := ((h.nodes i hi).order trivial).1
  have hfst : ((s.raft.nodes i).applied.map Prod.fst)[q]? = some x.1 := by
    rw [List.getElem?_map, hx]
    rfl
  rw [horder] at hfst
  obtain ⟨hlt, hget⟩ := List.getElem?_eq_some_iff.mp hfst
  rw [List.getElem_range'] at hget
  have hindex : x.1 = q + 1 := by omega
  rw [← hindex]
  exact (h.nodes i hi).calls trivial x (List.mem_of_getElem? hx)

omit [DecidableEq C] [DecidableEq R] [DecidableEq Rid] in
/-- What a node applied is in its log. -/
theorem logged_of_applied (hA : Consistent LogEntry.term cfg.quorums A)
    (h : Coupled cfg.toConfig True s.raft A) (hi : i ∈ cfg.nodes) {x : ℕ × Proposal C R Rid}
    (hx : x ∈ (s.raft.nodes i).applied) : s.Logged x.2.call := by
  have hn := h.nodes i hi
  have hdecided := hn.calls trivial x hx
  obtain ⟨horder, hcommit⟩ := hn.order trivial
  have hmem : x.1 ∈ List.range' 1 (s.raft.nodes i).volatile.lastApplied :=
    horder ▸ List.mem_map_of_mem hx
  obtain ⟨hpos, hle⟩ := List.mem_range'_1.mp hmem
  have hsettled := hn.settled trivial
  have hlen := hsettled.1
  obtain ⟨e, he⟩ : ∃ e, (s.raft.nodes i).persistent.log[x.1 - 1]? = some e :=
    ⟨_, List.getElem?_eq_getElem (by omega)⟩
  obtain ⟨T, p, hcommitted, hp, hleader⟩ := Settled.getElem? hsettled (by omega) he
  have hsame : Decided cfg.toConfig A x.1 e.command := ⟨T, p, e, hcommitted, hpos, hp, hleader, rfl⟩
  exact ⟨x.1 - 1, e, Or.inl ⟨i, he⟩, by rw [hsame.unique hdecided hA]⟩

theorem logged_of_answer (ht : Tracked cfg s) (hA : Consistent LogEntry.term cfg.quorums A)
    (h : Coupled cfg.toConfig True s.raft A) (hi : i ∈ cfg.nodes) {status : LockStatus}
    (hans : (c, status) ∈ (s.managers i).replica.answers) : s.Logged c := by
  rw [ht.answers_eq i default] at hans
  have hmem := (Replica.calls_answers_replay default _).subset (List.mem_map_of_mem hans)
  obtain ⟨p, hp, rfl⟩ := List.mem_map.mp hmem
  obtain ⟨x, hx, rfl⟩ := List.mem_map.mp hp
  exact logged_of_applied hA h hi hx

theorem overruled_of_answer (ht : Tracked cfg s) (h : Coupled cfg.toConfig True s.raft A)
    (hi : i ∈ cfg.nodes) (hans : (c, .deadlock) ∈ (s.managers i).replica.answers) :
    Overruled cfg A c :=
  ⟨(s.raft.nodes i).applied.map Prod.snd, fun _ _ hq => decided_applied h hi hq,
    ht.nodup_applied i, ht.answers_eq i default ▸ hans⟩

/-- Once a request is refused no node answers it otherwise. -/
theorem Overruled.answer_eq (ho : Overruled cfg A c) (ht : Tracked cfg s)
    (hA : Consistent LogEntry.term cfg.quorums A) (h : Coupled cfg.toConfig True s.raft A)
    (hi : i ∈ cfg.nodes) {status : LockStatus}
    (hans : (c, status) ∈ (s.managers i).replica.answers) : status = .deadlock := by
  obtain ⟨ps, hps, hnodup, hrefused⟩ := ho
  rw [ht.answers_eq i default] at hans
  -- one list of decided commands begins with the other
  have hagree : ∀ (q : ℕ) p p', ps[q]? = some p →
      ((s.raft.nodes i).applied.map Prod.snd)[q]? = some p' → p = p' :=
    fun q p p' hp hp' => (hps q p hp).unique (decided_applied h hi hp') hA
  have hunique : ∀ {rs : List (Proposal C R Rid)}, (rs.map Proposal.call).Nodup →
      (c, .deadlock) ∈ (Replica.replay default rs).answers →
      (c, status) ∈ (Replica.replay default rs).answers → status = .deadlock := by
    intro rs hrs hd hst
    have hanswers := hrs.sublist (Replica.calls_answers_replay default rs)
    exact congrArg Prod.snd (List.inj_on_of_nodup_map hanswers hst hd rfl)
  rcases prefix_or_prefix hagree with ⟨rest, hrest⟩ | ⟨rest, hrest⟩
  · refine hunique (ht.nodup_applied i) ?_ hans
    rw [← hrest]
    exact (Replica.answers_replay_append default ps rest).subset hrefused
  · refine hunique hnodup hrefused ?_
    rw [← hrest]
    exact (Replica.answers_replay_append default _ rest).subset hans

omit [DecidableEq N] in
theorem Tracked.waiting_of_waits (ht : Tracked cfg s) (h : s.Waits i c) :
    (c, .waiting) ∈ (s.managers i).replica.answers := by
  obtain ⟨r, req, hreq, rfl⟩ := h
  have htable := congrArg Replica.table (ht.replicas i default)
  have hmem : req.mapStamp Stamp.call ∈
      (Replica.replay default ((s.raft.nodes i).applied.map Prod.snd)).table.waiting r := by
    rw [← htable]
    show _ ∈ ((s.managers i).replica.table.mapStamp Stamp.call).waiting r
    rw [LockTable.waiting_mapStamp]
    exact List.mem_map_of_mem hreq
  rw [ht.answers_eq i default]
  exact (Replica.answered_waiting_replay default _).1 r _ hmem

/-- Call `c` has sent nothing that is under way, and its command is nowhere or was refused. -/
structure Done (cfg : LockConfig N C R Rid) (s : LockCluster N C R Rid)
    (A : History N (Proposal C R Rid)) (c : ℕ) : Prop where
  known : c < s.calls.length
  silent : ∀ call, s.calls[c]? = some call → ¬ call.Sending
  out : ¬ s.Logged c ∨ Overruled cfg A c

theorem Done.not_granted (hd : Done cfg s A c) (ht : Tracked cfg s)
    (hA : Consistent LogEntry.term cfg.quorums A) (h : Coupled cfg.toConfig True s.raft A)
    (hi : i ∈ cfg.nodes) : ¬ s.Waits i c ∧ ¬ s.Granted i c := by
  have hnot : ∀ {status : LockStatus}, status ≠ .deadlock →
      (c, status) ∉ (s.managers i).replica.answers := by
    intro status hne hans
    rcases hd.out with hout | hout
    · exact hout (logged_of_answer ht hA h hi hans)
    · exact hne (hout.answer_eq ht hA h hi hans)
  refine ⟨fun hw => ?_, fun hg => ?_⟩
  · exact hnot (fun h => by cases h) (ht.waiting_of_waits hw)
  · rcases hg with hans | ⟨req, hreq, rfl⟩
    · exact hnot (fun h => by cases h) hans
    · exact hnot (fun h => by cases h) (ht.waiting_of_served hreq)

omit [DecidableEq N] in
/-- A call that proposes nothing has nothing in a log. -/
theorem not_logged_of_index (ht : Tracked cfg s) {call : Call N C R Rid}
    (hk : s.calls[c]? = some call) (hindex : call.args.index = none) : ¬ s.Logged c := by
  rintro ⟨p, e, he, rfl⟩
  obtain ⟨other, hother, hsome, -⟩ := ht.entries p e he
  obtain rfl := Option.some.inj (hk.symm.trans hother)
  rw [hindex] at hsome
  cases hsome

/-- The only new command is the one of the call that starts. -/
theorem logged_step {s' : LockCluster N C R Rid} (ht : Tracked cfg s)
    {x : Env C ℚ × LockAction N C R Rid} (hstep : s.step cfg x = some s') (hlt : c < s.calls.length)
    (h : s'.Logged c) : s.Logged c := by
  obtain ⟨p, e, he, rfl⟩ := h
  rcases raft_step hstep with hraft | ⟨a, hraft, hnew⟩
  · exact ⟨p, e, hraft ▸ he, rfl⟩
  · rcases Cluster.carries_step ht.inPlace ht.saved hraft he with hold | ⟨j, command, ha, -, rfl⟩
    · exact ⟨p, e, hold, rfl⟩
    · have hcall : command.call < s.calls.length := hlt
      rcases hnew with ⟨-, hnot⟩ | ⟨j', command', ha', heq⟩
      · exact absurd ha (hnot j command)
      · rw [ha] at ha'
        obtain ⟨-, rfl⟩ := Action.propose.inj ha'
        omega

theorem Done.step {s' : LockCluster N C R Rid} {A' : History N (Proposal C R Rid)}
    (hd : Done cfg s A c) (ht : Tracked cfg s) {x : Env C ℚ × LockAction N C R Rid}
    (hstep : s.step cfg x = some s') (hA : Consistent LogEntry.term cfg.quorums A)
    (g : Extends A A') : Done cfg s' A' c := by
  have hkeep := keepsCalls_step hstep
  refine ⟨hd.known.trans_le hkeep.length_le, fun call' hk' => ?_, ?_⟩
  · have hk : s.calls[c]? = some (s.calls.get ⟨c, hd.known⟩) := List.getElem?_eq_getElem hd.known
    obtain ⟨call, hcall, hkept⟩ := hkeep c _ hk
    obtain rfl := Option.some.inj (hcall.symm.trans hk')
    rintro ⟨target, hm⟩
    rw [hkept.message (hd.silent _ hk)] at hm
    exact hd.silent _ hk ⟨target, hm⟩
  · exact hd.out.imp (fun hnot hl => hnot (logged_step ht hstep hd.known hl)) fun ho => ho.mono hA g

/-! ## The invariant -/

/-- Nothing that was done for a refused caller has an effect any more. -/
structure Agrees (cfg : LockConfig N C R Rid) (s : LockCluster N C R Rid)
    (A : History N (Proposal C R Rid)) : Prop where
  tracked : Tracked cfg s
  consistent : Consistent LogEntry.term cfg.quorums A
  coupled : Coupled cfg.toConfig True s.raft A
  refused : ∀ k, s.ToldNo k → ∀ c, s.OnBehalf k c → Done cfg s A c

theorem Withdrawn.done (h : s.Withdrawn cfg c) (ht : Tracked cfg s)
    (hc : Coupled cfg.toConfig True s.raft A) (hlt : c < s.calls.length) : Done cfg s A c :=
  ⟨hlt, h.1, h.2.imp_right fun ⟨_, hi, hans⟩ => overruled_of_answer ht hc hi hans⟩

/-- A future that is done with DENIED or DEADLOCK when its call takes it. -/
theorem done_of_future (h : Agrees cfg s A) {x : Env C ℚ × LockAction N C R Rid}
    (hx : Withdraws cfg s x) {k : ℕ} {call : Call N C R Rid} {lockType : LockType}
    {status : LockStatus} (hk : s.calls[k]? = some call)
    (hop : call.args.op = .acquire lockType) (hp : call.Pending)
    (hfuture : call.future = some status) (ha : x.2 = .wake k ∨ x.2 = .proposed k)
    (hno : status = .timeout ∨ status = .denied ∨ status = .deadlock) (hb : s.OnBehalf k c) :
    Done cfg s A c := by
  have hbook := h.tracked.bookkeeping
  have hlt := (List.getElem?_eq_some_iff.mp hk).1
  rcases hbook.futures k call status hk hp hfuture with rfl | ⟨hst, hres⟩
  · exact (hx.givesUp k call lockType hk hop (Or.inr (Or.inr ⟨ha, hfuture⟩)) c hb).done h.tracked
      h.coupled (hb.lt_length hbook hlt)
  · obtain rfl : status = .deadlock := by
      rcases hst with rfl | rfl
      · rcases hno with hno | hno | hno <;> cases hno
      · rfl
    -- the call proposes itself, so it works for itself alone
    have hmessage : call.message = none := by
      have hindex := hbook.indices k call hk hp
      cases hm : call.message with
      | none => rfl
      | some m =>
        rw [hbook.messages k call hk (by rw [hm]; rfl)] at hindex
        cases hindex
    obtain rfl := hb.eq_of_message hk hmessage
    have hans := hres.resolve_right (hx.own c call hk ha hfuture)
    refine ⟨hlt, silent_of_message hk fun target hm => ?_, Or.inr (overruled_of_answer h.tracked
      h.coupled (hbook.nodes c call hk) hans)⟩
    rw [hmessage] at hm
    cases hm

theorem done_of_returns (h : Agrees cfg s A) {x : Env C ℚ × LockAction N C R Rid}
    (hx : Withdraws cfg s x) {k : ℕ} {call : Call N C R Rid} {lockType : LockType}
    {status : LockStatus} (hk : s.calls[k]? = some call)
    (hop : call.args.op = .acquire lockType) (hret : Returns s k call x.2 status)
    (hno : status = .timeout ∨ status = .denied ∨ status = .deadlock) (hb : s.OnBehalf k c) :
    Done cfg s A c := by
  have hbook := h.tracked.bookkeeping
  have hlt := (List.getElem?_eq_some_iff.mp hk).1
  have hgivesUp : GivesUp k call x.2 → Done cfg s A c := fun hg =>
    (hx.givesUp k call lockType hk hop hg c hb).done h.tracked h.coupled (hb.lt_length hbook hlt)
  obtain ⟨env, a⟩ := x
  cases hret with
  | proposed _ hstage hf =>
    exact done_of_future h hx hk hop (Or.inr ⟨_, hstage⟩) hf (Or.inr rfl) hno hb
  | released hrel =>
    rw [hop] at hrel
    cases hrel
  | wake hstage hf => exact done_of_future h hx hk hop (Or.inl hstage) hf (Or.inl rfl) hno hb
  | timeout => exact hgivesUp (Or.inl rfl)
  | @response target j child _ hstage hmessage hj hchild =>
    rcases Relation.ReflTransGen.cases_head hb with rfl | ⟨j', ⟨call', target', hk', hm⟩, hrest⟩
    · refine ⟨hlt, silent_of_message hk fun target' hm => ?_, Or.inl (not_logged_of_index h.tracked
        hk (hbook.messages k call hk (by rw [hmessage]; rfl)))⟩
      rw [hmessage] at hm
      cases hm
    · obtain rfl := Option.some.inj (hk.symm.trans hk')
      rw [hmessage] at hm
      obtain ⟨-, hj'⟩ := Prod.mk.inj (Option.some.inj hm)
      obtain rfl := Delivery.handled.inj hj'
      obtain ⟨child', hchild', hop'⟩ := hbook.children k call target j hk hmessage
      obtain rfl := Option.some.inj (hj.symm.trans hchild')
      exact h.refused j ⟨child, lockType, status, hj, hop'.trans hop, hchild, hno⟩ c hrest
  | noResponse => exact hgivesUp (Or.inr (Or.inl rfl))

theorem Agrees.step {s' : LockCluster N C R Rid} (h : Agrees cfg s A)
    {x : Env C ℚ × LockAction N C R Rid} (hx : Withdraws cfg s x)
    (hstep : s.step cfg x = some s') : ∃ A', Agrees cfg s' A' := by
  have ht' := h.tracked.step hstep
  have hkeep := keepsCalls_step hstep
  obtain ⟨A', g, hA', hc'⟩ : Simulated cfg.toConfig True A s'.raft := by
    rcases raft_step hstep with hraft | ⟨a, hraft, ⟨ha, -⟩ | ⟨j, command, rfl, -⟩⟩
    · exact ⟨A, Extends.refl A, h.consistent, hraft ▸ h.coupled⟩
    · obtain ⟨hsave, hstale⟩ := hx.raft a ha
      exact Simulated.step h.coupled h.consistent hsave (fun _ => hstale) hraft
    · exact Simulated.step h.coupled h.consistent rfl (fun _ => rfl) hraft
  -- what is done for a refused caller was started before
  have hold : ∀ k, (∀ c, s.OnBehalf k c → Done cfg s A c) → ∀ c, s'.OnBehalf k c →
      Done cfg s' A' c := by
    intro k hdone c hb
    have hbefore : s.OnBehalf k c := by
      induction hb with
      | refl => exact .refl
      | tail _ hchild ih =>
        have hd := hdone _ ih
        exact ih.tail (child_of_keeps hkeep hd.known hd.silent hchild)
    exact (hdone c hbefore).step h.tracked hstep h.consistent g
  refine ⟨A', ht', hA', hc', fun k hno c hb => ?_⟩
  obtain ⟨call', lockType, status, hk', hop, hr, hst⟩ := hno
  rcases returnedIn_step hstep k call' status hk' hr with ⟨call, hk, hret⟩ | hdenied
  · obtain ⟨other, hother, hkept⟩ := hkeep k call hk
    obtain rfl := Option.some.inj (hk'.symm.trans hother)
    rw [hkept.args] at hop
    rcases hret with hret | hret
    · exact hold k (h.refused k ⟨call, lockType, status, hk, hop, hret, hst⟩) c hb
    · exact hold k (fun c hb => done_of_returns h hx hk hop hret hst hb) c hb
  · obtain rfl := hb.eq_of_message hk' hdenied.message
    refine ⟨(List.getElem?_eq_some_iff.mp hk').1, silent_of_message hk' fun target hm => ?_,
      Or.inl (not_logged_of_index ht' hk' hdenied.args)⟩
    rw [hdenied.message] at hm
    cases hm

end Coupled

theorem agrees_boot (cfg : LockConfig N C R Rid) (start : N → ℚ) :
    Agrees cfg (boot start : LockCluster N C R Rid) init where
  tracked := tracked_boot cfg start
  consistent := consistent_init
  coupled := coupled_boot cfg.toConfig True start
  refused k hno := by
    obtain ⟨call, -, -, hk, -⟩ := hno
    cases hk

theorem keepsCalls_run {s s' : LockCluster N C R Rid} {xs : List (Env C ℚ × LockAction N C R Rid)}
    (hrun : s.run cfg xs = some s') : KeepsCalls s s' := by
  induction xs generalizing s with
  | nil => exact KeepsCalls.of_calls (congrArg LockCluster.calls (Option.some.inj hrun).symm)
  | cons x rest ih =>
    obtain ⟨t, ht, hrest⟩ := Transition.run_cons hrun
    exact (keepsCalls_step ht).trans (ih hrest)

/-- From the moment an `acquire_lock` has returned TIMEOUT, DENIED or DEADLOCK, no node has the
    request in a waiting list or grants it, in every run in which every call that gives up has
    withdrawn what it started. -/
theorem refused_never_granted {start : N → ℚ}
    {before after : List (Env C ℚ × LockAction N C R Rid)} {s s' : LockCluster N C R Rid}
    (hsteps : (boot start).EachStep cfg (Withdraws cfg) (before ++ after))
    (hs : (boot start).run cfg before = some s) (hs' : s.run cfg after = some s') {k : ℕ}
    (hno : s.ToldNo k) {c : ℕ} (hb : s.OnBehalf k c) {i : N} (hi : i ∈ cfg.nodes) :
    ¬ s'.Waits i c ∧ ¬ s'.Granted i c := by
  have hrun : (boot start).run cfg (before ++ after) = some s' := by
    show Transition.run _ _ _ = _
    rw [Transition.run_append]
    exact Option.bind_eq_some_iff.mpr ⟨s, hs, hs'⟩
  have hkeep := keepsCalls_run hs'
  obtain ⟨A, h⟩ := Transition.run_preserves (I := fun s => ∃ A, Agrees cfg s A)
    (fun _ _ _ ⟨_, h⟩ hx hstep => h.step hx hstep) ⟨init, agrees_boot cfg start⟩ hsteps hrun
  exact (h.refused k (hno.mono hkeep) c (hb.mono hkeep)).not_granted h.tracked h.consistent
    h.coupled hi

/-! ## Concrete runs -/

/-- No call gives up in the step, and no two calls have one request id. -/
def calm (s : LockCluster N C R Rid) (x : Env C ℚ × LockAction N C R Rid) : Bool :=
  match x.2 with
  | .raft a => a.savesWhole && !s.raft.staleSuccess a
  | .timeout _ => false
  | .noResponse _ => false
  | .wake k => (s.calls[k]?).all fun call => decide (call.future ≠ some .denied)
  | .proposed k => (s.calls[k]?).all fun call => decide (call.future ≠ some .denied)
  | _ => true

/-- All request ids so far are different. -/
def DistinctIds (s : LockCluster N C R Rid) : Prop :=
  s.calls.Pairwise fun call call' =>
    call.args.requestId = none ∨ call.args.requestId ≠ call'.args.requestId

instance (s : LockCluster N C R Rid) : Decidable s.DistinctIds :=
  inferInstanceAs (Decidable (List.Pairwise _ _))

omit [DecidableEq N] [DecidableEq C] [DecidableEq R] [DecidableEq Rid] in
theorem DistinctIds.not_collides {s : LockCluster N C R Rid} (h : s.DistinctIds) (k : ℕ) :
    ¬ s.Collides k := by
  rintro ⟨k', call, call', requestId, hne, hk, hk', hid, hid'⟩
  have hpair : ∀ {a b : ℕ} {x y : Call N C R Rid}, a < b → s.calls[a]? = some x →
      s.calls[b]? = some y → x.args.requestId = some requestId →
      y.args.requestId ≠ some requestId := by
    intro a b x y hab ha hb hx hy
    obtain ⟨hla, rfl⟩ := List.getElem?_eq_some_iff.mp ha
    obtain ⟨hlb, rfl⟩ := List.getElem?_eq_some_iff.mp hb
    rcases List.pairwise_iff_getElem.mp h a b hla hlb hab with hnone | hne
    · rw [hx] at hnone
      cases hnone
    · exact hne (hx.trans hy.symm)
  rcases Nat.lt_or_gt_of_ne hne with hlt | hlt
  · exact hpair hlt hk' hk hid' hid
  · exact hpair hlt hk hk' hid hid'

omit [DecidableEq C] [DecidableEq R] [DecidableEq N] [DecidableEq Rid] in
theorem withdraws_of_calm {s : LockCluster N C R Rid} {x : Env C ℚ × LockAction N C R Rid}
    (h : s.calm x = true) (hids : s.DistinctIds) : Withdraws cfg s x where
  raft a ha := by
    unfold calm at h
    rw [ha] at h
    simpa using h
  givesUp k call lockType hk hop hg := by
    unfold calm at h
    rcases hg with hg | hg | ⟨hg | hg, hf⟩
    · rw [hg] at h
      cases h
    · rw [hg] at h
      cases h
    · rw [hg] at h
      simp [hk, hf] at h
    · rw [hg] at h
      simp [hk, hf] at h
  own k call hk ha hf := hids.not_collides k

/-- Clients 0 and 1 hold a resource each and ask for the other's; client 1 asks last. -/
def refusal : List (Env (Fin 2) ℚ × LockAction (Fin 1) (Fin 2) (Fin 2) RequestId) :=
  during 1 electionOfNode ++
    (during 2 (.acquireLock 0 0 0 .exclusive :: proposeReturns 1 0) ++
      (during 3 (.acquireLock 0 1 1 .exclusive :: proposeReturns 2 1) ++
        (during 4 (.acquireLock 0 0 1 .exclusive :: proposeReturns 3 2) ++
          during 5 (.acquireLock 0 1 0 .exclusive :: proposeReturns 4 3))))

/-- Client 0 lets its resource go after client 1 was refused it. -/
theorem refused_never_granted_deadlock :
    ∃ s s' : LockCluster (Fin 1) (Fin 2) (Fin 2) RequestId, s.ToldNo 3 ∧ s'.Granted 0 2 ∧
      ¬ s'.Waits 0 3 ∧ ¬ s'.Granted 0 3 := by
  have hsteps : (boot fun _ => 0).EachStep oneNode (fun s x => s.calm x = true ∧ s.DistinctIds)
      (refusal ++ during 6 [.releaseLock 0 1 1]) := by
    decide +kernel
  have hrun : ((boot fun _ => 0).run oneNode refusal).any (fun s =>
      (s.calls[3]?).any (fun call => decide (call.stage = .returned .deadlock) &&
          decide (call.args.op = .acquire .exclusive)) &&
        (s.run oneNode (during 6 [.releaseLock 0 1 1])).any fun s' =>
          (s'.managers 0).replica.served.any fun req =>
            decide (req.timestamp.call = 2)) = true := by
    decide +kernel
  obtain ⟨s, hs, hrest⟩ := (Option.any_eq_true _ _).mp hrun
  obtain ⟨hcall, hrest⟩ := Bool.and_eq_true_iff.mp hrest
  obtain ⟨call, hk, hcall⟩ := (Option.any_eq_true _ _).mp hcall
  obtain ⟨hstage, hop⟩ := Bool.and_eq_true_iff.mp hcall
  obtain ⟨s', hs', hserved⟩ := (Option.any_eq_true _ _).mp hrest
  obtain ⟨req, hreq, heq⟩ := List.any_eq_true.mp hserved
  have hno : s.ToldNo 3 := ⟨call, .exclusive, .deadlock, hk, of_decide_eq_true hop,
    of_decide_eq_true hstage, Or.inr (Or.inr rfl)⟩
  have hgranted : s'.Granted 0 2 := Or.inr ⟨req, hreq, of_decide_eq_true heq⟩
  exact ⟨s, s', hno, hgranted, refused_never_granted
    (hsteps.imp fun _ _ _ h => withdraws_of_calm h.1 h.2) hs hs' hno .refl (by decide)⟩

/-- A request is granted after its caller was told TIMEOUT. -/
theorem refused_then_granted :
    ¬ ∀ (before after : List (Env (Fin 2) ℚ × LockAction (Fin 1) (Fin 2) (Fin 2) RequestId))
      (s s' : LockCluster (Fin 1) (Fin 2) (Fin 2) RequestId) (k c : ℕ),
      (boot fun _ => 0).run oneNode before = some s → s.run oneNode after = some s' →
      s.ToldNo k → s.OnBehalf k c → ¬ s'.Waits 0 c ∧ ¬ s'.Granted 0 c := by
  intro hclaim
  have hrun : ((boot fun _ => 0).run oneNode (queuedBehind ++ during 4 [.timeout 1])).any (fun s =>
      (s.calls[1]?).any (fun call => decide (call.stage = .returned .timeout) &&
          decide (call.args.op = .acquire .exclusive)) &&
        (s.run oneNode (during 5 [.releaseLock 0 0 0])).any fun s' =>
          (s'.managers 0).replica.served.any fun req =>
            decide (req.timestamp.call = 1)) = true := by
    decide +kernel
  obtain ⟨s, hs, hrest⟩ := (Option.any_eq_true _ _).mp hrun
  obtain ⟨hcall, hrest⟩ := Bool.and_eq_true_iff.mp hrest
  obtain ⟨call, hk, hcall⟩ := (Option.any_eq_true _ _).mp hcall
  obtain ⟨hstage, hop⟩ := Bool.and_eq_true_iff.mp hcall
  obtain ⟨s', hs', hserved⟩ := (Option.any_eq_true _ _).mp hrest
  obtain ⟨req, hreq, heq⟩ := List.any_eq_true.mp hserved
  have hno : s.ToldNo 1 := ⟨call, .exclusive, .timeout, hk, of_decide_eq_true hop,
    of_decide_eq_true hstage, Or.inl rfl⟩
  exact (hclaim _ _ s s' 1 1 hs hs' hno .refl).2 (Or.inr ⟨req, hreq, of_decide_eq_true heq⟩)

end Pynchronize.LockCluster
