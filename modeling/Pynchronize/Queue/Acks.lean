import Pynchronize.Queue.Traffic

/-!
# Acknowledgements

`ack` answers True when the own store knows the message, and sends the message's
id to the nodes that the ring names at that moment. Every copy is acked in the
end as long as no ack passes a copy by: each pending copy lies on a target of
the `ack`, and no pending copy comes to a node whose QUEUE_ACK has been handled.
-/

namespace Pynchronize.QueueCluster

open Lib

variable {P : Type*} {cfg : QueueConfig} {s s' : QueueCluster P} {a : QueueAction P}

/-- Call `k` is an `ack` of the message, and has found it. -/
def Acking (s : QueueCluster P) (messageId : String) (k : ℕ) : Prop :=
  ∃ c ∈ s.calls[k]?, c.op = .ack messageId ∧ c.stage ≠ .returned (.acked false)

instance [DecidableEq P] (s : QueueCluster P) (messageId : String) (k : ℕ) :
    Decidable (Acking s messageId k) :=
  inferInstanceAs (Decidable (∃ c ∈ s.calls[k]?, _))

theorem Acking.step {messageId : String} {k : ℕ} (hk : Acking s messageId k)
    (h : Stepped cfg s a s') : Acking s' messageId k := by
  obtain ⟨c, hc, hop, hfailed⟩ := hk
  obtain ⟨c', hc', hcont⟩ := (callsStep h).old k c hc
  exact ⟨c', hc', hcont.op.trans hop, fun hf => hfailed (hcont.failed hf)⟩

theorem Acking.op_ne_consume {messageId : String} {k : ℕ} (hk : Acking s messageId k) :
    ∀ c, s.calls[k]? = some c → ∀ queueName limit, c.op ≠ .consume queueName limit := by
  obtain ⟨c, hc, hop, -⟩ := hk
  intro c' hc' queueName limit hconsume
  obtain rfl := Option.some.inj (hc.symm.trans hc')
  cases hop.symm.trans hconsume

/-- An `ack` starts at a node that has the message, and owes it to the targets. -/
structure StartsAck (cfg : QueueConfig) (s : QueueCluster P) (a : QueueAction P)
    (s' : QueueCluster P) (messageId i : String) (targets : List String) : Prop where
  action : a = .ack i messageId
  found : ∃ msg, (s.nodes i).store.get messageId = some msg
  lookup : (s.nodes i).targetNodes cfg messageId = some targets
  owes : ∀ n ∈ targets, n ∈ cfg.nodes → n ≠ i → Owes cfg s' s.calls.length n

theorem acking_before (h : Stepped cfg s a s') {messageId : String} {k : ℕ}
    (hk : Acking s' messageId k) :
    Acking s messageId k ∨
      k = s.calls.length ∧ ∃ i targets, StartsAck cfg s a s' messageId i targets := by
  obtain ⟨c', hc', hop, hfailed⟩ := hk
  rcases (callsStep h).new k c' hc' with hlt | ⟨hlast, hbegins⟩
  · obtain ⟨c, hc⟩ : ∃ c, s.calls[k]? = some c := ⟨_, List.getElem?_eq_getElem hlt⟩
    obtain ⟨c'', hc'', hcont⟩ := (callsStep h).old k c hc
    obtain rfl := Option.some.inj (hc'.symm.trans hc'')
    exact Or.inl ⟨c, hc, hcont.op.symm.trans hop, fun hf => hfailed (hcont.returned _ hf)⟩
  · unfold Begins at hbegins
    rw [hop] at hbegins
    obtain ⟨ha, hfails | ⟨-, msg, targets, hget, ht, howes⟩⟩ := hbegins
    · exact absurd hfails.2 hfailed
    · exact Or.inr ⟨hlast, c'.node, targets, ha, ⟨msg, hget⟩, ht,
        fun n hn hcfg hne => howes n hn ⟨hcfg, hne⟩⟩

/-- A node that handles an ack keeps no pending copy. -/
theorem acked_of_acks (h : Stepped cfg s a s') {n messageId : String}
    (hacks : Acks cfg s a n messageId) {msg : QueueMessage P}
    (hget : (s'.nodes n).store.get messageId = some msg) : msg.acked = true := by
  have hedit : ((s.nodes n).handleAck cfg messageId).store.get messageId = some msg →
      msg.acked = true := by
    intro hget
    have hget : ((s.nodes n).store.ack cfg.hash messageId).1.get messageId = some msg := hget
    rw [MessageStore.get_ack, if_pos rfl] at hget
    obtain ⟨old, -, rfl⟩ := Option.map_eq_some_iff.mp hget
    rfl
  cases h with
  | ackUnknown hi hnone =>
    obtain ⟨rfl, rfl, ⟨msg, hsome⟩, -⟩ := hacks
    rw [hnone] at hsome
    cases hsome
  | ackHere hi hfound ht hin =>
    obtain ⟨rfl, rfl, -⟩ := hacks
    rw [nodes_startCall, nodes_setNode_self] at hget
    exact hedit hget
  | ackAway hi hfound ht hout =>
    obtain ⟨rfl, rfl, -, targets, ht', hin⟩ := hacks
    cases ht.symm.trans ht'
    exact absurd hin hout
  | @deliver j now p hj hstage =>
    obtain ⟨q, hq, -, rfl, hrequest⟩ := hacks
    obtain rfl := Option.some.inj (hj.symm.trans hq)
    have hnode : (s.handle cfg j p now).nodes p.dst =
        (s.nodes p.dst).handleAck cfg messageId := by
      unfold handle
      rw [hrequest]
      exact nodes_setNode_self ..
    rw [hnode] at hget
    exact hedit hget
  | _ => exact False.elim hacks

/-- The QUEUE_ACK of a call stays owed until it is handled. -/
theorem Acking.owes_step {messageId n : String} {k : ℕ} (hk : Acking s messageId k)
    (hw : Wired cfg s) (h : Stepped cfg s a s') (howes : Owes cfg s k n) :
    Owes cfg s' k n ∨ Acks cfg s a n messageId := by
  rcases QueueCluster.owes_step h hk.op_ne_consume howes with hkept |
    ⟨j, now, p, rfl, hj, hflight, hcall, hdst⟩
  · exact Or.inl hkept
  · obtain ⟨c, hc, hop, -⟩ := hk
    obtain ⟨-, c', hc', hmatch, -⟩ := hw.packets p (List.mem_of_getElem? hj)
    obtain rfl := Option.some.inj (hc.symm.trans (hcall ▸ hc'))
    unfold Matches at hmatch
    rw [hop] at hmatch
    exact Or.inr ⟨p, hj, hflight, hdst, hmatch⟩

/-! ## No ack passes a copy by -/

/-- A `consume` that has returned the message. -/
def hands (messageId : String) (c : QueueCall P) : Bool :=
  match c.stage with
  | .returned (.messages messages) => messages.any fun msg => msg.id = messageId
  | _ => false

/-- What keeps acks effective on the nodes that live on: an `ack` of a message that was consumed
    here finds it in the own store, its targets are all nodes with a pending copy, and a pending
    copy comes only to nodes that every `ack` has still to reach. -/
def ReachesCopies (cfg : QueueConfig) (live : List String) (s : QueueCluster P) :
    QueueAction P → Prop
  | .ack i messageId =>
    ((∃ c ∈ s.calls, c.node = i ∧ hands messageId c = true) →
      ((s.nodes i).store.get messageId).isSome = true) ∧
    (((s.nodes i).store.get messageId).isSome = true →
      ∀ targets ∈ (s.nodes i).targetNodes cfg messageId, ∀ n ∈ live,
        ∀ msg ∈ (s.nodes n).store.get messageId, msg.acked = false → n ∈ targets)
  | .publish i _ _ messageId _ =>
    i ∈ live → ∀ targets ∈ (s.nodes i).targetNodes cfg messageId, i ∈ targets →
      ∀ k < s.calls.length, Acking s messageId k → Owes cfg s k i
  | .deliver j _ => ∀ p ∈ s.packets[j]?, p.dst ∈ live →
    match p.request with
    | .publish message => message.acked = false → (s.nodes p.dst).store.get message.id = none →
      ∀ k < s.calls.length, Acking s message.id k → Owes cfg s k p.dst
    | _ => True
  | _ => True

instance [DecidableEq P] (live : List String) (s : QueueCluster P) (a : QueueAction P) :
    Decidable (ReachesCopies cfg live s a) :=
  match a with
  | .ack _ _ => (inferInstance : Decidable ((_ → _) ∧ (_ → _)))
  | .publish .. => (inferInstance : Decidable (_ → _))
  | .deliver j _ =>
    have : ∀ p : Packet P, Decidable (p.dst ∈ live → match p.request with
        | .publish message => message.acked = false →
          (s.nodes p.dst).store.get message.id = none →
            ∀ k < s.calls.length, Acking s message.id k → Owes cfg s k p.dst
        | _ => True) := fun p =>
      match p.request with
      | .publish _ => (inferInstance : Decidable (_ → _ → _ → _))
      | .consume .. => (inferInstance : Decidable (_ → True))
      | .ack _ => (inferInstance : Decidable (_ → True))
    (inferInstance : Decidable (∀ p ∈ s.packets[j]?, _))
  | .membership .. | .consume .. | .redeliver .. | .reply _ | .noReply _ =>
    isTrue trivial

/-- Every `ack` owes its message to every node with a pending copy. -/
def OwesCopies (cfg : QueueConfig) (live : List String) (s : QueueCluster P) : Prop :=
  ∀ messageId k, Acking s messageId k → ∀ n ∈ live, ∀ msg,
    (s.nodes n).store.get messageId = some msg → msg.acked = false → Owes cfg s k n

variable {live : List String}

theorem Acking.lt {messageId : String} {k : ℕ} (hk : Acking s messageId k) :
    k < s.calls.length := by
  obtain ⟨c, hc, -⟩ := hk
  exact (List.getElem?_eq_some_iff.mp hc).1

/-- A node to which a pending copy comes is owed every ack. -/
theorem owes_of_adds {n : String} {message : QueueMessage P} (hreach : ReachesCopies cfg live s a)
    (hadds : Adds cfg s a n message) (hn : n ∈ live) (hpending : message.acked = false) {k : ℕ}
    (hk : Acking s message.id k) : Owes cfg s k n := by
  cases a with
  | publish i queueName payload messageId now =>
    obtain ⟨rfl, rfl, -, targets, ht, hin⟩ := hadds
    exact hreach hn targets ht hin k hk.lt hk
  | deliver j now =>
    obtain ⟨p, hj, -, rfl, hrequest, hnone⟩ := hadds
    have hreach := hreach p hj hn
    rw [hrequest] at hreach
    exact hreach hpending hnone k hk.lt hk
  | _ => exact False.elim hadds

theorem not_adds_of_startsAck {messageId i n : String} {targets : List String}
    {message : QueueMessage P} (hstart : StartsAck cfg s a s' messageId i targets)
    (hadds : Adds cfg s a n message) : False := by
  rw [hstart.action] at hadds
  exact hadds

theorem OwesCopies.step (ho : OwesCopies cfg live s) (hw : Wired cfg s)
    (hreach : ReachesCopies cfg live s a) (h : Stepped cfg s a s') : OwesCopies cfg live s' := by
  intro messageId k hk n hn msg hget hpending
  have hpasses : ¬ Acks cfg s a n messageId := by
    intro hacks
    rw [acked_of_acks h hacks hget] at hpending
    cases hpending
  have hkept : Acking s messageId k → Owes cfg s k n → Owes cfg s' k n := fun hk howes =>
    (hk.owes_step hw h howes).resolve_right hpasses
  cases copyFrom h hget with
  | @old old hold hcontent =>
    obtain ⟨-, -, -, -, hacked⟩ := QueueMessage.content_eq_iff.mp hcontent
    have hpending : old.acked = false := hacked.trans hpending
    rcases acking_before h hk with hk | ⟨rfl, i, targets, hstart⟩
    · exact hkept hk (ho messageId k hk n hn old hold hpending)
    · obtain ⟨msg, hfound⟩ := hstart.found
      have hreach := hreach
      rw [hstart.action] at hreach
      have hin : n ∈ targets :=
        hreach.2 (by rw [hfound]; rfl) targets hstart.lookup n hn old hold hpending
      refine hstart.owes n hin (hw.stored n messageId old hold) ?_
      rintro rfl
      refine hpasses ?_
      rw [hstart.action]
      exact ⟨rfl, rfl, hstart.found, targets, hstart.lookup, hin⟩
  | acked hold hacks => exact absurd hacks hpasses
  | added hadds hid =>
    subst hid
    rcases acking_before h hk with hk | ⟨-, i, targets, hstart⟩
    · exact hkept hk (owes_of_adds hreach hadds hn hpending hk)
    · exact (not_adds_of_startsAck hstart hadds).elim

/-- What a run of such steps keeps. -/
theorem owesCopies_run {clock : String → String → ℚ} {acts : List (QueueAction P)}
    (hreach : EachStep cfg (ReachesCopies cfg live) (boot cfg clock) acts)
    (hrun : run cfg (boot cfg clock) acts = some s) :
    Wired cfg s ∧ OwesCopies cfg live s := by
  refine Transition.run_preserves (I := fun s => Wired cfg s ∧ OwesCopies cfg live s)
    (fun s a s' hs hreach hstep => ⟨hs.1.step (stepped hstep),
      hs.2.step hs.1 hreach (stepped hstep)⟩) ⟨wired_boot clock, ?_⟩ hreach hrun
  rintro messageId k ⟨c, hc, -⟩
  cases hc

/-! ## What `ack` answers -/

theorem keepsCalls_run {acts : List (QueueAction P)} (hrun : run cfg s acts = some s') :
    KeepsCalls s s' := by
  refine Transition.run_preserves (I := fun t => KeepsCalls s t) (P := fun _ _ => True)
    (fun t a t' ht _ hstep k c hk => ?_) (fun k c hk => ⟨c, hk, .refl c⟩)
    (Transition.eachStep_of_forall _ fun _ _ _ => trivial) hrun
  obtain ⟨c', hc', hcont⟩ := ht k c hk
  obtain ⟨c'', hc'', hcont'⟩ := (callsStep (stepped hstep)).old k c' hc'
  exact ⟨c'', hc'', hcont.trans hcont'⟩

theorem getElem?_startCall_last (cfg : QueueConfig) (t : QueueCluster P) (i : String)
    (op : QueueOp P) (object : Option (QueueMessage P)) (targets : List String) :
    ∃ stage, (t.startCall cfg i op object targets).calls[t.calls.length]? =
      some ⟨i, op, object, stage⟩ ∧ stage ≠ .returned (.acked false) := by
  obtain ⟨stage, hcalls, hfailed, -⟩ := t.calls_startCall cfg i op object targets
  refine ⟨stage, ?_, hfailed⟩
  rw [hcalls, List.getElem?_concat_length]

/-- The call that an `ack` starts. -/
theorem ack_starts {i messageId : String} (h : Stepped cfg s (.ack i messageId) s') :
    ∃ c, s'.calls[s.calls.length]? = some c ∧ c.node = i ∧ c.op = .ack messageId ∧
      (c.stage = .returned (.acked false) ↔ (s.nodes i).store.get messageId = none) := by
  cases h with
  | ackUnknown hi hget =>
    exact ⟨_, List.getElem?_concat_length, rfl, rfl, fun _ => hget, fun _ => rfl⟩
  | ackHere hi hget ht hin =>
    obtain ⟨stage, hc, hfailed⟩ := getElem?_startCall_last cfg
      (s.setNode i ((s.nodes i).handleAck cfg messageId)) i (.ack messageId) none _
    refine ⟨_, hc, rfl, rfl, fun hf => absurd hf hfailed, fun hnone => ?_⟩
    rw [hget] at hnone
    cases hnone
  | ackAway hi hget ht hout =>
    obtain ⟨stage, hc, hfailed⟩ := getElem?_startCall_last cfg s i (.ack messageId) none _
    refine ⟨_, hc, rfl, rfl, fun hf => absurd hf hfailed, fun hnone => ?_⟩
    rw [hget] at hnone
    cases hnone

/-- Whoever acks a message belongs to an `ack` that has found it. -/
theorem acking_of_acks (hw : Wired cfg s) (h : Stepped cfg s a s') {n messageId : String}
    (hacks : Acks cfg s a n messageId) : ∃ k, Acking s' messageId k := by
  cases a with
  | ack i id =>
    obtain ⟨rfl, rfl, ⟨msg, hget⟩, -⟩ := hacks
    obtain ⟨c, hc, -, hop, hfails⟩ := ack_starts h
    refine ⟨s.calls.length, c, hc, hop, fun hf => ?_⟩
    rw [hfails.mp hf] at hget
    cases hget
  | deliver j now =>
    obtain ⟨p, hj, -, -, hrequest⟩ := hacks
    obtain ⟨-, c, hc, hmatch, hfailed⟩ := hw.packets p (List.mem_of_getElem? hj)
    refine ⟨p.call, Acking.step ⟨c, hc, ?_, hfailed⟩ h⟩
    unfold Matches at hmatch
    rw [hrequest] at hmatch
    split at hmatch
    · obtain ⟨_, heq, -⟩ := hmatch
      cases heq
    · rename_i id hop
      cases hmatch
      exact hop
    · cases hmatch
  | _ => exact False.elim hacks

/-- Call `k` is an `ack` at node `i` that answers `result` and nothing else, at the latest when it
    has waited in vain for every node before it. -/
def AckAnswers (cfg : QueueConfig) (s : QueueCluster P) (k : ℕ) (i messageId : String)
    (result : Bool) : Prop :=
  (∃ c, s.calls[k]? = some c ∧ c.node = i ∧ c.op = .ack messageId ∧
    ∀ r, c.stage = .returned r → r = .acked result) ∧
  ∃ n s' c, run cfg s (List.replicate n (.noReply k)) = some s' ∧ s'.calls[k]? = some c ∧
    c.stage = .returned (.acked result)

theorem ackAnswers_of_returned {k : ℕ} {c : QueueCall P} {messageId : String} {result : Bool}
    (hc : s.calls[k]? = some c) (hop : c.op = .ack messageId)
    (hstage : c.stage = .returned (.acked result)) :
    AckAnswers cfg s k c.node messageId result := by
  refine ⟨⟨c, hc, rfl, hop, fun r hr => ?_⟩, 0, s, c, rfl, hc, hstage⟩
  cases hstage.symm.trans hr
  rfl

theorem answers_run {acts : List (QueueAction P)} (ha : Answers s)
    (hrun : run cfg s acts = some s') : Answers s' :=
  Transition.run_preserves (P := fun _ _ => True) (fun _ _ _ ha _ hstep => ha.step (stepped hstep))
    ha (Transition.eachStep_of_forall _ fun _ _ _ => trivial) hrun

/-- An `ack` that has not failed answers True. -/
theorem ackAnswers_true (ha : Answers s) {k : ℕ} {c : QueueCall P} {messageId : String}
    (hc : s.calls[k]? = some c) (hop : c.op = .ack messageId)
    (hfailed : c.stage ≠ .returned (.acked false)) :
    AckAnswers cfg s k c.node messageId true := by
  have hresult : ∀ r, c.stage = .returned r → r = .acked true := by
    intro r hr
    rcases ha c (List.mem_of_getElem? hc) r hr with rfl | ⟨response, rfl⟩
    · exact absurd hr hfailed
    · unfold Returns
      rw [hop]
  cases hstage : c.stage with
  | returned r => exact ackAnswers_of_returned hc hop (hresult r hstage ▸ hstage)
  | sending j rest =>
    obtain ⟨n, s', c', hrun, hc', hstage'⟩ : ∃ n s' c',
        run cfg s (List.replicate n (.noReply k)) = some s' ∧ s'.calls[k]? = some c' ∧
          c'.stage = .returned (Returns c.op none) := returns_of_sending hc hstage
    refine ⟨⟨c, hc, rfl, hop, hresult⟩, n, s', c', hrun, hc', hstage'.trans ?_⟩
    unfold Returns
    rw [hop]

/-- An `ack` answers True exactly if its node has the message. -/
theorem ack_answers {i messageId : String} (h : s.step cfg (.ack i messageId) = some s')
    (ha : Answers s) {t : QueueCluster P} {acts : List (QueueAction P)}
    (hrun : run cfg s' acts = some t) :
    AckAnswers cfg t s.calls.length i messageId ((s.nodes i).store.get messageId).isSome := by
  obtain ⟨c, hc, rfl, hop, hfails⟩ := ack_starts (stepped h)
  obtain ⟨c', hc', hcont⟩ := keepsCalls_run hrun _ c hc
  rw [← hcont.node]
  rw [← hcont.node] at hfails
  cases hget : (s.nodes c'.node).store.get messageId with
  | none =>
    exact ackAnswers_of_returned hc' (hcont.op.trans hop) (hcont.returned _ (hfails.mpr hget))
  | some msg =>
    refine ackAnswers_true (answers_run (ha.step (stepped h)) hrun) hc' (hcont.op.trans hop) ?_
    intro hf
    rw [hfails.mp (hcont.failed hf)] at hget
    cases hget

/-- The message of a handled ack is pending on no node. -/
theorem not_pending_of_acked (ho : OwesCopies cfg live s) (hw : Wired cfg s) {messageId : String}
    {k : ℕ} {c : QueueCall P} (hc : s.calls[k]? = some c) (hop : c.op = .ack messageId)
    (hacked : c.stage = .returned (.acked true)) {n : String} (hn : n ∈ live)
    (hp : ∀ p ∈ s.packets, p.call = k → p.dst = n → p.stage ≠ .inFlight) (queueName : String)
    (limit : ℤ) : ∀ msg ∈ (s.nodes n).store.getPending queueName limit, msg.id ≠ messageId := by
  intro msg hmem heq
  obtain ⟨id, -, hget, hpending⟩ := MessageStore.mem_getPending hmem
  obtain rfl : id = messageId := (hw.keyed n id msg hget).symm.trans heq
  have hk : Acking s id k := ⟨c, hc, hop, by rw [hacked]; simp⟩
  exact not_owes_of_returned hc hacked hp (ho id k hk n hn msg hget hpending)

theorem answers_boot (clock : String → String → ℚ) : Answers (P := P) (boot cfg clock) :=
  fun _ h => absurd h List.not_mem_nil

/-- In any run an `ack` answers True exactly if its node has the message. In a run in which no ack
    passes a copy by it answers True wherever a `consume` has returned the message, and once its
    requests are handled the message is pending on no node that lives on. -/
theorem ack_effective (cfg : QueueConfig) (clock : String → String → ℚ) (live : List String)
    (acts : List (QueueAction P)) (t : QueueCluster P)
    (hrun : run cfg (boot cfg clock) acts = some t) :
    (∀ acts₁ i messageId acts₂ s, acts = acts₁ ++ .ack i messageId :: acts₂ →
      run cfg (boot cfg clock) acts₁ = some s →
      AckAnswers cfg t s.calls.length i messageId ((s.nodes i).store.get messageId).isSome) ∧
    (EachStep cfg (ReachesCopies cfg live) (boot cfg clock) acts →
      (∀ acts₁ i messageId acts₂ s, acts = acts₁ ++ .ack i messageId :: acts₂ →
        run cfg (boot cfg clock) acts₁ = some s →
        (∃ c ∈ s.calls, c.node = i ∧ hands messageId c = true) →
        AckAnswers cfg t s.calls.length i messageId true) ∧
      ∀ (k : ℕ) c messageId, t.calls[k]? = some c → c.op = .ack messageId →
        c.stage = .returned (.acked true) → ∀ n ∈ live,
        (∀ p ∈ t.packets, p.call = k → p.dst = n → p.stage ≠ .inFlight) →
        ∀ queueName limit, ∀ msg ∈ (t.nodes n).store.getPending queueName limit,
          msg.id ≠ messageId) := by
  have hanswers : ∀ acts₁ i messageId acts₂ s, acts = acts₁ ++ .ack i messageId :: acts₂ →
      run cfg (boot cfg clock) acts₁ = some s →
      AckAnswers cfg t s.calls.length i messageId
        ((s.nodes i).store.get messageId).isSome := by
    rintro acts₁ i messageId acts₂ s rfl hs
    obtain ⟨u, hu, hrest⟩ := Option.bind_eq_some_iff.mp
      ((Transition.run_append _ acts₁ _).symm.trans hrun)
    obtain rfl := Option.some.inj (hs.symm.trans hu)
    obtain ⟨s', hs', hrest⟩ := Transition.run_cons hrest
    exact ack_answers hs' (answers_run (answers_boot clock) hs) hrest
  refine ⟨hanswers, fun hreach => ⟨?_, ?_⟩⟩
  · rintro acts₁ i messageId acts₂ s rfl hs hconsumed
    have hfound := ((hreach.append).2 s hs).1.1 hconsumed
    have hans := hanswers acts₁ i messageId acts₂ s rfl hs
    rwa [hfound] at hans
  · intro k c messageId hc hop hacked n hn hp queueName limit
    obtain ⟨hw, ho⟩ := owesCopies_run hreach hrun
    exact not_pending_of_acked ho hw hc hop hacked hn hp queueName limit

/-- Two nodes, each of which gets a copy of every message. -/
def replicatedPair : QueueConfig := { nodes := ["a", "b"], hash := md5 }

/-- `b` has consumed the message that `a` published. -/
def consumedRun : List (QueueAction String) :=
  [.publish "a" "orders" "book" "m" 0, .deliver 0 1, .reply 0, .consume "b" "orders" 1 2,
    .deliver 1 3, .reply 1]

/-- `b` acks the message, and `a` handles the QUEUE_ACK. -/
theorem ack_effective_replicated :
    ∃ t, run replicatedPair (boot replicatedPair fun _ _ => 0)
        (consumedRun ++ [.ack "b" "m", .deliver 2 4, .reply 2]) = some t ∧
      AckAnswers replicatedPair t 2 "b" "m" true ∧
      ∀ n ∈ ["a", "b"], ∀ limit, ∀ msg ∈ (t.nodes n).store.getPending "orders" limit,
        msg.id ≠ "m" := by
  have hrun : (run replicatedPair (boot replicatedPair fun _ _ => 0) consumedRun).any (fun s =>
        s.calls.length = 2 ∧ ∃ c ∈ s.calls, c.node = "b" ∧ hands "m" c = true) = true ∧
      (run replicatedPair (boot replicatedPair fun _ _ => 0)
        (consumedRun ++ [.ack "b" "m", .deliver 2 4, .reply 2])).any (fun t =>
          t.calls[2]? = some ⟨"b", .ack "m", none, .returned (.acked true)⟩ ∧
          ∀ p ∈ t.packets, p.call = 2 → p.stage ≠ .inFlight) = true ∧
      EachStep replicatedPair (ReachesCopies replicatedPair ["a", "b"])
        (boot replicatedPair fun _ _ => 0)
        (consumedRun ++ [.ack "b" "m", .deliver 2 4, .reply 2]) := by
    decide +kernel
  obtain ⟨hs, ht, hreach⟩ := hrun
  obtain ⟨s, hs, hconsumed⟩ := (Option.any_eq_true _ _).mp hs
  obtain ⟨t, ht, hacked⟩ := (Option.any_eq_true _ _).mp ht
  obtain ⟨hlen, hconsumed⟩ := of_decide_eq_true hconsumed
  obtain ⟨hcall, hpackets⟩ := of_decide_eq_true hacked
  obtain ⟨-, heffective⟩ := ack_effective replicatedPair _ ["a", "b"] _ t ht
  obtain ⟨hanswers, hpending⟩ := heffective hreach
  refine ⟨t, ht, hlen ▸ hanswers consumedRun "b" "m" _ s rfl hs hconsumed, fun n hn limit => ?_⟩
  exact hpending 2 _ "m" hcall rfl rfl n hn (fun p hp hk _ => hpackets p hp hk) "orders" limit

/-- One copy of each message: `b` consumes a message of `a`'s, and cannot ack it. -/
theorem consumed_not_acked :
    ∃ t, run { replicatedPair with replicationFactor := 1 }
        (boot { replicatedPair with replicationFactor := 1 } fun _ _ => 0)
        ([.publish "a" "orders" "book" "m" 0, .consume "b" "orders" 1 1, .deliver 0 2, .reply 1,
          .ack "b" "m"] : List (QueueAction String)) = some t ∧
      (∃ c ∈ t.calls[1]?, c.node = "b" ∧ hands "m" c = true) ∧
      t.calls[2]? = some ⟨"b", .ack "m", none, .returned (.acked false)⟩ ∧
      ∃ msg ∈ (t.nodes "a").store.getPending "orders" 1, msg.id = "m" := by
  have hrun : (run { replicatedPair with replicationFactor := 1 }
      (boot { replicatedPair with replicationFactor := 1 } fun _ _ => 0)
      ([.publish "a" "orders" "book" "m" 0, .consume "b" "orders" 1 1, .deliver 0 2, .reply 1,
        .ack "b" "m"] : List (QueueAction String))).any (fun t =>
      (∃ c ∈ t.calls[1]?, c.node = "b" ∧ hands "m" c = true) ∧
      t.calls[2]? = some ⟨"b", .ack "m", none, .returned (.acked false)⟩ ∧
      ∃ msg ∈ (t.nodes "a").store.getPending "orders" 1, msg.id = "m") = true := by
    decide +kernel
  obtain ⟨t, ht, h⟩ := (Option.any_eq_true _ _).mp hrun
  exact ⟨t, ht, of_decide_eq_true h⟩

end Pynchronize.QueueCluster
