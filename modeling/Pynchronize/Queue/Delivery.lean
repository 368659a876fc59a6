import Pynchronize.Queue.Acks
import Pynchronize.Queue.Placement

/-!
# Consuming what was published

`publish` places a message by its id, `consume` asks the node that the name of
the queue leads to. With a fixed membership a `consume` finds a message exactly
if this node is one of the targets of the id.
-/

namespace Pynchronize.QueueCluster

open Lib

variable {P : Type*} {cfg : QueueConfig} {s s' : QueueCluster P} {a : QueueAction P}

/-! ## The copies of one message -/

/-- The message has been acked, or its id published with something else. -/
def Spoiled (s : QueueCluster P) (message : QueueMessage P) : Prop :=
  (∃ k, Acking s message.id k) ∨
    ∃ c ∈ s.calls, ∃ other, c.op = .publish other ∧ other.id = message.id ∧
      ¬ (other.queueName = message.queueName ∧ other.payload = message.payload)

/-- A pending copy of the message. -/
def IsCopy (message msg : QueueMessage P) : Prop :=
  msg.queueName = message.queueName ∧ msg.payload = message.payload ∧ msg.acked = false

/-- All copies of the message are as it was published, unless it is spoiled. -/
def Fresh (s : QueueCluster P) (message : QueueMessage P) : Prop :=
  Spoiled s message ∨ Everywhere (fun msg => msg.id = message.id → IsCopy message msg) s

theorem Spoiled.step {message : QueueMessage P} (hs : Spoiled s message)
    (h : Stepped cfg s a s') : Spoiled s' message := by
  rcases hs with ⟨k, hk⟩ | ⟨c, hc, other, hop, hother⟩
  · exact Or.inl ⟨k, hk.step h⟩
  · obtain ⟨k, hk⟩ := List.mem_iff_getElem?.mp hc
    obtain ⟨c', hc', hcont⟩ := (callsStep h).old k c hk
    exact Or.inr ⟨c', List.mem_of_getElem? hc', other, hcont.op.trans hop, hother⟩

/-- The message of a new `publish` is in the calls. -/
theorem exists_publish {i queueName messageId : String} {payload : P} {now : ℚ}
    (h : Stepped cfg s (.publish i queueName payload messageId now) s') :
    ∃ c ∈ s'.calls, c.op = .publish ⟨messageId, queueName, payload, now, 0, 0, false⟩ := by
  cases h with
  | publishHere =>
    obtain ⟨stage, hcalls, -⟩ := calls_startCall cfg _ i (.publish _) none _
    rw [hcalls]
    exact ⟨_, List.mem_append_right _ (List.mem_singleton_self _), rfl⟩
  | publishAway =>
    obtain ⟨stage, hcalls, -⟩ := calls_startCall cfg s i (.publish _) _ _
    rw [hcalls]
    exact ⟨_, List.mem_append_right _ (List.mem_singleton_self _), rfl⟩

theorem Fresh.step {message : QueueMessage P} (hf : Fresh s message) (hw : Wired cfg s)
    (h : Stepped cfg s a s') : Fresh s' message := by
  by_cases hspoiled : Spoiled s' message
  · exact Or.inl hspoiled
  refine Or.inr ((hf.resolve_left fun hs => hspoiled (hs.step h)).step h ?_ ?_ ?_)
  · intro msg msg' hcontent hmsg hid
    obtain ⟨hid', hqueue', hpayload', -, hacked'⟩ := QueueMessage.content_eq_iff.mp hcontent
    obtain ⟨hqueue, hpayload, hacked⟩ := hmsg (hid'.trans hid)
    exact ⟨hqueue'.symm.trans hqueue, hpayload'.symm.trans hpayload, hacked'.symm.trans hacked⟩
  · rintro i queueName payload messageId now rfl hid
    obtain ⟨c, hc, hop⟩ := exists_publish h
    by_contra hother
    exact hspoiled (Or.inr ⟨c, hc, _, hop, hid, fun hsame => hother ⟨hsame.1, hsame.2, rfl⟩⟩)
  · intro n messageId hacks msg hget hid
    obtain rfl : messageId = message.id := (hw.keyed n messageId msg hget).symm.trans hid
    exact absurd (Or.inl (acking_of_acks hw h hacks)) hspoiled

/-! ## A `consume` on its way -/

/-- Nothing but its own wake-up changes the stage of a call. -/
theorem stage_step (h : Stepped cfg s a s') {k : ℕ} {c : QueueCall P} (hc : s.calls[k]? = some c)
    (hreply : a ≠ .reply k) (hnoReply : a ≠ .noReply k) :
    ∃ c', s'.calls[k]? = some c' ∧ c'.node = c.node ∧ c'.op = c.op ∧ c'.stage = c.stage := by
  have hlt : k < s.calls.length := (List.getElem?_eq_some_iff.mp hc).1
  have happend : ∀ {t : QueueCluster P} {d : QueueCall P}, t.calls = s.calls ++ [d] →
      ∃ c', t.calls[k]? = some c' ∧ c'.node = c.node ∧ c'.op = c.op ∧ c'.stage = c.stage := by
    intro t d hcalls
    exact ⟨c, hcalls ▸ getElem?_append_of_some hc _, rfl, rfl, rfl⟩
  have hstart : ∀ {t : QueueCluster P} {i op object targets}, t.calls[k]? = some c →
      ∃ c', (t.startCall cfg i op object targets).calls[k]? = some c' ∧ c'.node = c.node ∧
        c'.op = c.op ∧ c'.stage = c.stage := by
    intro t i op object targets ht
    obtain ⟨stage, hcalls, -⟩ := t.calls_startCall cfg i op object targets
    exact ⟨c, hcalls ▸ getElem?_append_of_some ht _, rfl, rfl, rfl⟩
  have hresumed : ∀ {t : QueueCluster P} {k' call rest response},
      Resumed cfg s k' call rest response t → k' ≠ k →
      ∃ c', t.calls[k]? = some c' ∧ c'.node = c.node ∧ c'.op = c.op ∧ c'.stage = c.stage := by
    intro t k' call rest response hr hne
    obtain ⟨stage, hcalls, -⟩ := hr.calls
    rw [hcalls, List.getElem?_set_ne hne]
    exact ⟨c, hc, rfl, rfl, rfl⟩
  cases h with
  | membership => exact ⟨c, hc, rfl, rfl, rfl⟩
  | @publishHere i queueName messageId payload now targets =>
    obtain ⟨stage, hcalls, -⟩ := calls_startCall cfg (s.store cfg i _) i (.publish _) none targets
    refine ⟨s.detach i messageId c, ?_, (s.continues_detach _ _ c).node,
      (s.continues_detach _ _ c).op, s.stage_detach _ _ c⟩
    rw [hcalls, List.getElem?_append_left (by simpa [store, setNode] using hlt)]
    exact s.getElem?_store cfg i _ hc
  | publishAway => exact hstart hc
  | consumeHere => exact happend rfl
  | @consumeAway i queueName nodeId limit =>
    exact happend (d := ⟨i, .consume queueName limit, none, .sending s.packets.length []⟩)
      (set_concat_length ..)
  | consumeNowhere => exact happend rfl
  | ackUnknown => exact happend rfl
  | ackHere => exact hstart hc
  | ackAway => exact hstart hc
  | redeliver => exact ⟨c, hc, rfl, rfl, rfl⟩
  | deliver => exact ⟨c, hc, rfl, rfl, rfl⟩
  | reply => exact hresumed (resumed ..) fun heq => hreply (heq ▸ rfl)
  | noReply => exact hresumed (resumed ..) fun heq => hnoReply (heq ▸ rfl)

/-- A request stays as it is until it is delivered. -/
theorem packet_step (h : Stepped cfg s a s') {j : ℕ} {p : Packet P} (hj : s.packets[j]? = some p)
    (hdeliver : ∀ now, p.stage = .inFlight → a ≠ .deliver j now) : s'.packets[j]? = some p := by
  have hresumed : ∀ {t t' : QueueCluster P} {k call rest response},
      Resumed cfg t k call rest response t' → t.packets = s.packets → t'.packets[j]? = some p := by
    intro t t' k call rest response hr ht
    cases hr with
    | returns => exact ht.symm ▸ hj
    | @sends nodeId rest' request =>
      show (t.packets ++ [_])[j]? = some p
      rw [ht]
      exact getElem?_append_of_some hj _
  have hstart : ∀ {t : QueueCluster P} {i op object targets}, t.packets = s.packets →
      (t.startCall cfg i op object targets).packets[j]? = some p := by
    intro t i op object targets ht
    have hr : Resumed cfg (t.addCall ⟨i, op, object, .sending t.packets.length targets⟩)
        t.calls.length ⟨i, op, object, .sending t.packets.length targets⟩ targets none
        (t.startCall cfg i op object targets) := resumed ..
    exact hresumed hr ht
  cases h with
  | membership => exact hj
  | publishHere => exact hstart rfl
  | publishAway => exact hstart rfl
  | consumeHere => exact hj
  | consumeAway => exact getElem?_append_of_some hj _
  | consumeNowhere => exact hj
  | ackUnknown => exact hj
  | ackHere => exact hstart rfl
  | ackAway => exact hstart rfl
  | redeliver => exact hj
  | @deliver j' now p' hj' hflight =>
    show (s.packets.set j' _)[j]? = some p
    rw [List.getElem?_set_ne, hj]
    rintro rfl
    obtain rfl := Option.some.inj (hj.symm.trans hj')
    exact hdeliver now hflight rfl
  | reply => exact hresumed (resumed ..) rfl
  | noReply => exact hresumed (resumed ..) rfl

/-- The request of a `consume` is under way to node `r`, or handled with a good answer. -/
def Asked (Good : List (QueueMessage P) → Prop) (k : ℕ) (r queueName : String) (limit : ℤ)
    (p : Packet P) : Prop :=
  p.call = k ∧ p.dst = r ∧ p.request = .consume queueName limit ∧
    ∀ response, p.stage = .handled response → ∃ messages, response = some messages ∧ Good messages

/-- Call `k` is a `consume` that waits for the answer of node `r`, or has returned a good one. -/
def Consuming (Good : List (QueueMessage P) → Prop) (s : QueueCluster P) (k : ℕ)
    (i r queueName : String) (limit : ℤ) : Prop :=
  ∃ c, s.calls[k]? = some c ∧ c.node = i ∧ c.op = .consume queueName limit ∧
    ((∃ messages, c.stage = .returned (.messages messages) ∧ Good messages) ∨
      ∃ j p, c.stage = .sending j [] ∧ s.packets[j]? = some p ∧ Asked Good k r queueName limit p)

variable {Good : List (QueueMessage P) → Prop} {k : ℕ} {i r queueName : String} {limit : ℤ}

theorem Consuming.step (hc : Consuming Good s k i r queueName limit) (h : Stepped cfg s a s')
    (hnoReply : a ≠ .noReply k)
    (hserve : ∀ (j : ℕ) now p, a = .deliver j now → s.packets[j]? = some p →
      Asked Good k r queueName limit p →
        Good ((s.nodes r).handleConsume now queueName limit).2) :
    Consuming Good s' k i r queueName limit := by
  obtain ⟨c, hk, hnode, hop, hreturned | ⟨j, p, hstage, hj, hcall, hdst, hrequest, hgood⟩⟩ := hc
  · obtain ⟨c', hk', hcont⟩ := (callsStep h).old k c hk
    obtain ⟨messages, hstage, hmessages⟩ := hreturned
    exact ⟨c', hk', hcont.node.trans hnode, hcont.op.trans hop,
      Or.inl ⟨messages, hcont.returned _ hstage, hmessages⟩⟩
  by_cases hreply : a = .reply k
  · subst hreply
    cases h with
    | @reply _ j' call p' rest response hk' hstage' hj' hresponse =>
      obtain rfl := Option.some.inj (hk.symm.trans hk')
      cases hstage.symm.trans hstage'
      obtain rfl := Option.some.inj (hj.symm.trans hj')
      obtain ⟨messages, rfl, hmessages⟩ := hgood response hresponse
      have hresume : s.resume cfg k c [] (some messages) =
          s.setStage k c (.returned (.messages messages)) := by
        simp [resume, hop]
      rw [hresume]
      exact ⟨_, getElem?_set_of_some hk _, hnode, hop,
        Or.inl ⟨messages, rfl, hmessages⟩⟩
  · obtain ⟨c', hk', hnode', hop', hstage'⟩ := stage_step h hk hreply hnoReply
    refine ⟨c', hk', hnode'.trans hnode, hop'.trans hop, Or.inr ?_⟩
    by_cases hdeliver : ∃ now, p.stage = .inFlight ∧ a = .deliver j now
    · obtain ⟨now, hflight, rfl⟩ := hdeliver
      have hmessages := hserve j now p rfl hj ⟨hcall, hdst, hrequest, hgood⟩
      cases h with
      | deliver hj' =>
        obtain rfl := Option.some.inj (hj.symm.trans hj')
        refine ⟨j, { p with stage := .handled (some
          ((s.nodes p.dst).handleConsume now queueName limit).2) }, hstage'.trans hstage, ?_, hcall,
          hdst, hrequest, ?_⟩
        · show (s.packets.set j _)[j]? = _
          rw [getElem?_set_of_some hj, hrequest]
        · rintro response ⟨⟩
          exact ⟨_, rfl, hdst ▸ hmessages⟩
    · refine ⟨j, p, hstage'.trans hstage, packet_step h hj fun now hflight ha => ?_, hcall, hdst,
        hrequest, hgood⟩
      exact hdeliver ⟨now, hflight, ha⟩

/-- A `consume` starts at the responsible node or asks it. -/
theorem consuming_start {now : ℚ} (h : Stepped cfg s (.consume i queueName limit now) s')
    (hr : r ∈ cfg.nodes)
    (hring : (s.nodes i).consistentHash.getNode cfg.hash queueName = some (some r))
    (hserve : r = i → Good ((s.nodes r).handleConsume now queueName limit).2) :
    Consuming Good s' s.calls.length i r queueName limit := by
  cases h with
  | consumeHere hi hr' =>
    cases hring.symm.trans hr'
    exact ⟨_, List.getElem?_concat_length, rfl, rfl, Or.inl ⟨_, rfl, hserve rfl⟩⟩
  | consumeAway hi hr' hne hn =>
    cases hring.symm.trans hr'
    refine ⟨_, List.getElem?_set_self (by simp [addCall]), rfl, rfl,
      Or.inr ⟨s.packets.length, _, rfl, List.getElem?_concat_length, rfl, rfl, rfl, ?_⟩⟩
    rintro response ⟨⟩
  | consumeNowhere hi hr' hnone =>
    exact absurd (Option.some.inj (hr'.symm.trans hring)) (hnone r hr)

theorem ends_of_handled (cfg : QueueConfig) {j : ℕ} {c : QueueCall P} {p : Packet P}
    {response : Option (List (QueueMessage P))} (hk : s.calls[k]? = some c)
    (hop : c.op = .consume queueName limit) (hstage : c.stage = .sending j [])
    (hj : s.packets[j]? = some p) (hhandled : p.stage = .handled response) :
    ∃ t c', s.step cfg (.reply k) = some t ∧ t.calls[k]? = some c' ∧
      c'.stage.isReturned = true := by
  refine ⟨s.setStage k c (.returned (.messages (response.getD []))),
    { c with stage := .returned (.messages (response.getD [])) }, ?_,
    getElem?_set_of_some hk _, rfl⟩
  simp [step, hk, hstage, hj, hhandled, resume, hop]

/-- The call returns once its request is delivered and its answer has come. -/
theorem Consuming.ends (hc : Consuming Good s k i r queueName limit) :
    ∃ acts t c, (∀ a ∈ acts, a = .reply k ∨ ∃ j, a = .deliver j 0) ∧
      run cfg s acts = some t ∧ t.calls[k]? = some c ∧ c.stage.isReturned = true := by
  obtain ⟨c, hk, -, hop, ⟨messages, hstage, -⟩ | ⟨j, p, hstage, hj, -, -, hrequest, -⟩⟩ := hc
  · exact ⟨[], s, c, by simp, rfl, hk, by simp [hstage, QueueStage.isReturned]⟩
  cases hp : p.stage with
  | handled response =>
    obtain ⟨t, c', hstep, hc', hreturned⟩ := ends_of_handled cfg hk hop hstage hj hp
    exact ⟨[.reply k], t, c', by simp, by simp [run, Transition.run, hstep], hc', hreturned⟩
  | inFlight =>
    have hdeliver : s.step cfg (.deliver j 0) = some (s.handle cfg j p 0) := by
      simp [QueueCluster.step, hj, hp]
    have hj' : (s.handle cfg j p 0).packets[j]? = some { p with stage := .handled (some
        ((s.nodes p.dst).handleConsume 0 queueName limit).2) } := by
      show (s.packets.set j _)[j]? = _
      rw [getElem?_set_of_some hj, hrequest]
    obtain ⟨t, c', hstep, hc', hreturned⟩ :=
      ends_of_handled cfg (s := s.handle cfg j p 0) hk hop hstage hj' rfl
    exact ⟨[.deliver j 0, .reply k], t, c', by simp, by simp [run, Transition.run, hdeliver, hstep],
      hc', hreturned⟩

/-! ## What a `consume` finds -/

/-- When call `k` is served, its limit covers the pending messages of the queue. -/
def Covers (cfg : QueueConfig) (k : ℕ) (s : QueueCluster P) : QueueAction P → Prop
  | .consume i queueName limit _ => k = s.calls.length →
    (s.nodes i).consistentHash.getNode cfg.hash queueName = some (some i) →
      (s.nodes i).store.getQueueSize queueName ≤ limit
  | .deliver j _ => ∀ p ∈ s.packets[j]?, p.call = k →
    match p.request with
    | .consume queueName limit => (s.nodes p.dst).store.getQueueSize queueName ≤ limit
    | _ => True
  | _ => True

instance (k : ℕ) (s : QueueCluster P) (a : QueueAction P) : Decidable (Covers cfg k s a) :=
  match a with
  | .consume .. => (inferInstance : Decidable (_ → _ → _))
  | .deliver j _ =>
    have : ∀ p : Packet P, Decidable (p.call = k → match p.request with
        | .consume queueName limit => (s.nodes p.dst).store.getQueueSize queueName ≤ limit
        | _ => True) := fun p =>
      match p.request with
      | .publish _ => (inferInstance : Decidable (_ → True))
      | .consume .. => (inferInstance : Decidable (_ → _))
      | .ack _ => (inferInstance : Decidable (_ → True))
    (inferInstance : Decidable (∀ p ∈ s.packets[j]?, _))
  | .membership .. | .publish .. | .ack .. | .redeliver .. | .reply _ | .noReply _ =>
    isTrue trivial

/-- The message is among the given ones. -/
def Finds (message : QueueMessage P) (messages : List (QueueMessage P)) : Prop :=
  ∃ msg ∈ messages, msg.id = message.id ∧ msg.queueName = message.queueName ∧
    msg.payload = message.payload

/-- A node with a pending copy hands it out. -/
theorem finds_of_stored {message : QueueMessage P} {now : ℚ}
    (he : Everywhere (fun msg => msg.id = message.id → IsCopy message msg) s) (hw : Wired cfg s)
    (hl : Listed s) (hstored : ((s.nodes r).store.get message.id).isSome = true)
    (hlimit : (s.nodes r).store.getQueueSize message.queueName ≤ limit) :
    Finds message ((s.nodes r).handleConsume now message.queueName limit).2 := by
  obtain ⟨msg, hget⟩ := Option.isSome_iff_exists.mp hstored
  have hid := hw.keyed r message.id msg hget
  obtain ⟨hqueue, hpayload, hacked⟩ := he.stores r message.id msg hget hid
  obtain ⟨msg', hmem, hcontent⟩ := QueueNode.handleConsume_of_pending now hget hid hacked
    (hqueue ▸ hl r message.id msg hget) hlimit
  obtain ⟨hid', hqueue', hpayload', -⟩ := QueueMessage.content_eq_iff.mp hcontent
  exact ⟨msg', hmem, hid'.trans hid, hqueue'.trans hqueue, hpayload'.trans hpayload⟩

/-- A node that is no target does not hand the message out. -/
theorem not_handed_out {id : String} {now : ℚ} (hw : Wired cfg s) (hp : Placed cfg s)
    (hout : ¬ cfg.IsTarget id r) :
    ∀ msg ∈ ((s.nodes r).handleConsume now queueName limit).2, msg.id ≠ id := by
  rintro msg hmem rfl
  obtain ⟨id, old, hget, hcontent⟩ := QueueNode.mem_handleConsume hmem
  obtain ⟨hid, -⟩ := QueueMessage.content_eq_iff.mp hcontent
  obtain rfl : msg.id = id := hid.symm.trans (hw.keyed r id old hget)
  exact hout (hp.stored r msg.id old hget)

/-- Exactly a target has the message to hand out. -/
def Fits (cfg : QueueConfig) (message : QueueMessage P) (r : String)
    (messages : List (QueueMessage P)) : Prop :=
  (cfg.IsTarget message.id r → Finds message messages) ∧
    (¬ cfg.IsTarget message.id r → ∀ msg ∈ messages, msg.id ≠ message.id)

/-- Node `r` is ready to serve call `k`. -/
structure Serving (cfg : QueueConfig) (s : QueueCluster P) (message : QueueMessage P) (k : ℕ)
    (i r : String) (limit : ℤ) : Prop where
  wired : Wired cfg s
  placed : Placed cfg s
  listed : Listed s
  fresh : Fresh s message
  stored : cfg.IsTarget message.id r → ((s.nodes r).store.get message.id).isSome = true
  consuming : cfg.IsTarget message.id r ∧ Spoiled s message ∨
    Consuming (Fits cfg message r) s k i r message.queueName limit

theorem fits_handleConsume {message : QueueMessage P} (now : ℚ) (hw : Wired cfg s)
    (hp : Placed cfg s) (hl : Listed s) (hf : Fresh s message)
    (hstored : cfg.IsTarget message.id r → ((s.nodes r).store.get message.id).isSome = true)
    (hspoiled : ¬ (cfg.IsTarget message.id r ∧ Spoiled s message))
    (hlimit : (s.nodes r).store.getQueueSize message.queueName ≤ limit) :
    Fits cfg message r ((s.nodes r).handleConsume now message.queueName limit).2 := by
  constructor
  · intro ht
    have he := hf.resolve_left fun hs => hspoiled ⟨ht, hs⟩
    exact finds_of_stored he hw hl (hstored ht) hlimit
  · exact not_handed_out hw hp

theorem Serving.step {message : QueueMessage P} (hs : Serving cfg s message k i r limit)
    (h : Stepped cfg s a s') (hfixed : FixedRing cfg s a) (hcovers : Covers cfg k s a)
    (hnoReply : a ≠ .noReply k) : Serving cfg s' message k i r limit := by
  refine ⟨hs.wired.step h, hs.placed.step hs.wired hfixed h, hs.listed.step h,
    hs.fresh.step hs.wired h, fun ht => isSome_step h (hs.stored ht), ?_⟩
  by_cases hspoiled : cfg.IsTarget message.id r ∧ Spoiled s message
  · exact Or.inl ⟨hspoiled.1, hspoiled.2.step h⟩
  · refine Or.inr ((hs.consuming.resolve_left hspoiled).step h hnoReply ?_)
    rintro j now p rfl hj ⟨hcall, hdst, hrequest, -⟩
    have hlimit := hcovers p hj hcall
    rw [hrequest, hdst] at hlimit
    exact fits_handleConsume now hs.wired hs.placed hs.listed hs.fresh hs.stored hspoiled hlimit

/-- What is known of a message when its `publish` is done. -/
structure Published (cfg : QueueConfig) (s : QueueCluster P) (message : QueueMessage P) :
    Prop where
  wired : Wired cfg s
  placed : Placed cfg s
  listed : Listed s
  reaches : Reaches cfg s
  fresh : Fresh s message

theorem published_run {clock : String → String → ℚ} {acts : List (QueueAction P)}
    (hrun : run cfg (boot cfg clock) acts = some s)
    (hfixed : EachStep cfg (FixedRing cfg) (boot cfg clock) acts) (message : QueueMessage P) :
    Published cfg s message := by
  refine Transition.run_preserves (I := fun s => Published cfg s message)
    (fun s a s' hs hfixed hmove => ?_) ?_ hfixed hrun
  · have h := stepped hmove
    exact ⟨hs.wired.step h, hs.placed.step hs.wired hfixed h, hs.listed.step h,
      hs.reaches.step hs.placed hs.wired h, hs.fresh.step hs.wired h⟩
  · refine ⟨wired_boot clock, placed_boot clock, ?_, ?_, Or.inr (everywhere_boot clock)⟩
    · intro n id msg hget
      cases hget
    · intro k c message hk
      simp [boot] at hk

/-- All publishes of the message's id are of this message. -/
def SameContent (s : QueueCluster P) (message : QueueMessage P) : Prop :=
  ∀ c ∈ s.calls, ∀ other, c.op = .publish other → other.id = message.id →
    other.queueName = message.queueName ∧ other.payload = message.payload

/-- The node that is responsible for the queue is a target of the message, as node `i` sees it. -/
def Meets (cfg : QueueConfig) (s : QueueCluster P) (i : String) (message : QueueMessage P) : Prop :=
  ∃ r targets, (s.nodes i).consistentHash.getNode cfg.hash message.queueName = some (some r) ∧
    (s.nodes i).consistentHash.getNodesForKey cfg.hash message.id cfg.replicationFactor =
      some targets ∧ r ∈ targets

/-- Call `k` is a `consume` at node `i` that returns a good list and nothing else, at the latest
    when its request and the answer have been delivered. -/
def ConsumeAnswers (cfg : QueueConfig) (s : QueueCluster P) (k : ℕ) (i : String)
    (Good : List (QueueMessage P) → Prop) : Prop :=
  (∃ c, s.calls[k]? = some c ∧ c.node = i ∧
    ∀ result, c.stage = .returned result → ∃ messages, result = .messages messages ∧
      Good messages) ∧
  ∃ acts t c, (∀ a ∈ acts, a = .reply k ∨ ∃ j, a = .deliver j 0) ∧ run cfg s acts = some t ∧
    t.calls[k]? = some c ∧ c.stage.isReturned = true

theorem Consuming.answers (hc : Consuming Good s k i r queueName limit)
    {Good' : List (QueueMessage P) → Prop} (himp : ∀ messages, Good messages → Good' messages) :
    ConsumeAnswers cfg s k i Good' := by
  refine ⟨?_, hc.ends⟩
  obtain ⟨c, hk, hnode, -, ⟨messages, hstage, hgood⟩ | ⟨j, p, hstage, -⟩⟩ := hc
  · refine ⟨c, hk, hnode, fun result hresult => ⟨messages, ?_, himp messages hgood⟩⟩
    cases hstage.symm.trans hresult
    rfl
  · refine ⟨c, hk, hnode, fun result hresult => ?_⟩
    cases hstage.symm.trans hresult

/-- A published message that is not acked is found by a `consume` exactly if the node that is
    responsible for its queue is one of its targets. -/
theorem consume_finds_iff (cfg : QueueConfig) (clock : String → String → ℚ)
    (acts₁ : List (QueueAction P)) (s : QueueCluster P)
    (hrun : run cfg (boot cfg clock) acts₁ = some s)
    (hfixed : EachStep cfg (FixedRing cfg) (boot cfg clock) acts₁) (k : ℕ) (c : QueueCall P)
    (message : QueueMessage P) (hk : s.calls[k]? = some c) (hop : c.op = .publish message)
    (hreturned : c.stage.isReturned = true)
    (hsent : ∀ p ∈ s.packets, p.call = k → p.stage ≠ .inFlight) (i : String)
    (hi : i ∈ cfg.nodes) (limit : ℤ) (now : ℚ) :
    (∃ s', s.step cfg (.consume i message.queueName limit now) = some s') ∧
    ∀ acts₂ t, run cfg s (.consume i message.queueName limit now :: acts₂) = some t →
      EachStep cfg (FixedRing cfg) s (.consume i message.queueName limit now :: acts₂) →
      EachStep cfg (Covers cfg s.calls.length) s
        (.consume i message.queueName limit now :: acts₂) →
      .noReply s.calls.length ∉ acts₂ → (∀ k, ¬ Acking t message.id k) →
      (Meets cfg s i message → SameContent t message →
        ConsumeAnswers cfg t s.calls.length i (Finds message)) ∧
      (¬ Meets cfg s i message →
        ConsumeAnswers cfg t s.calls.length i fun messages => ∀ msg ∈ messages,
          msg.id ≠ message.id) := by
  have hp := published_run hrun hfixed message
  obtain ⟨r, hr, hring⟩ := cfg.exists_responsible (List.ne_nil_of_mem hi) message.queueName
  rw [← hp.placed.ring i] at hring
  have hmeets : Meets cfg s i message ↔ cfg.IsTarget message.id r := by
    unfold Meets QueueConfig.IsTarget QueueConfig.targets
    rw [hring, hp.placed.ring i]
    simp
  rw [hmeets]
  refine ⟨?_, fun acts₂ t ht hfixed₂ hcovers hanswered hpending => ?_⟩
  · simp [step, hi, consume, hring]
  obtain ⟨s', hs', hrest⟩ := Transition.run_cons ht
  have hstored : cfg.IsTarget message.id r →
      ((s.nodes r).store.get message.id).isSome = true := by
    intro htarget
    obtain ⟨result, hresult⟩ := exists_result hreturned
    exact (hp.reaches k c message hk hop r hr htarget).resolve_right
      (not_owes_of_returned hk hresult fun p hmem hcall _ => hsent p hmem hcall)
  have h := stepped hs'
  have hbegin : Serving cfg s' message s.calls.length i r limit := by
    refine ⟨hp.wired.step h, hp.placed.step hp.wired hfixed₂.1 h, hp.listed.step h,
      hp.fresh.step hp.wired h, fun ht => isSome_step h (hstored ht), ?_⟩
    by_cases hspoiled : cfg.IsTarget message.id r ∧ Spoiled s message
    · exact Or.inl ⟨hspoiled.1, hspoiled.2.step h⟩
    · refine Or.inr (consuming_start h hr hring ?_)
      rintro rfl
      exact fits_handleConsume now hp.wired hp.placed hp.listed hp.fresh hstored hspoiled
        (hcovers.1 rfl hring)
  have hend : Serving cfg t message s.calls.length i r limit := by
    have heach := ((hfixed₂.tail hs').and (hcovers.tail hs')).and
      (Transition.eachStep_of_forall (P := fun _ a => a ≠ .noReply s.calls.length) s'
        fun _ a ha heq => hanswered (heq ▸ ha))
    exact Transition.run_preserves (I := fun u => Serving cfg u message s.calls.length i r limit)
      (fun u a u' hu hstep hmove => hu.step (stepped hmove) hstep.1.1 hstep.1.2 hstep.2)
      hbegin heach hrest
  constructor
  · intro htarget hsame
    refine (hend.consuming.resolve_left ?_).answers fun messages hfits => hfits.1 htarget
    rintro ⟨-, ⟨k', hk'⟩ | ⟨d, hd, other, hop', hid, hother⟩⟩
    · exact hpending k' hk'
    · exact hother (hsame d hd other hop' hid)
  · intro hout
    exact (hend.consuming.resolve_left fun hspoiled => hout hspoiled.1).answers
      fun messages hfits => hfits.2 hout

def book : QueueMessage String := ⟨"m", "orders", "book", 0, 0, 0, false⟩

/-- `b` consumes what `a` has published. -/
theorem consume_finds_book :
    ∃ s t, run replicatedPair (boot replicatedPair fun _ _ => 0)
        [.publish "a" "orders" "book" "m" 0, .deliver 0 1, .reply 0] = some s ∧
      run replicatedPair s [.consume "b" "orders" 1 2, .deliver 1 3, .reply 1] = some t ∧
      ConsumeAnswers replicatedPair t 1 "b" (Finds book) := by
  have hrun : (run replicatedPair (boot replicatedPair fun _ _ => 0)
      ([.publish "a" "orders" "book" "m" 0, .deliver 0 1, .reply 0] :
        List (QueueAction String))).any (fun s =>
      s.calls = [⟨"a", .publish book, none, .returned (.published "m")⟩] ∧
      (∀ p ∈ s.packets, p.call = 0 → p.stage ≠ .inFlight) ∧
      (s.nodes "b").consistentHash.getNode md5 "orders" = some (some "a") ∧
      (s.nodes "b").consistentHash.getNodesForKey md5 "m" 2 = some ["a", "b"] ∧
      EachStep replicatedPair (Covers replicatedPair 1) s
        [.consume "b" "orders" 1 2, .deliver 1 3, .reply 1] ∧
      (run replicatedPair s [.consume "b" "orders" 1 2, .deliver 1 3, .reply 1]).any (fun t =>
        t.calls.map QueueCall.op = [.publish book, .consume "orders" 1]) = true) = true := by
    decide +kernel
  obtain ⟨s, hs, h⟩ := (Option.any_eq_true _ _).mp hrun
  obtain ⟨hcalls, hsent, hnode, htargets, hcovers, hrun'⟩ := of_decide_eq_true h
  obtain ⟨t, ht, hops⟩ := (Option.any_eq_true _ _).mp hrun'
  have hop : ∀ c ∈ t.calls, c.op = .publish book ∨ c.op = .consume "orders" 1 := by
    intro c hc
    have hmem := List.mem_map_of_mem (f := QueueCall.op) hc
    rw [of_decide_eq_true hops] at hmem
    simpa using hmem
  refine ⟨s, t, hs, ht, ?_⟩
  have hfixed : EachStep replicatedPair (FixedRing replicatedPair)
      (boot replicatedPair fun _ _ => 0)
      [.publish "a" "orders" "book" "m" 0, .deliver 0 1, .reply 0] :=
    Transition.eachStep_of_forall _ (by simp [FixedRing])
  have hfixed₂ : EachStep replicatedPair (FixedRing replicatedPair) s
      [.consume "b" "orders" 1 2, .deliver 1 3, .reply 1] :=
    Transition.eachStep_of_forall _ (by simp [FixedRing])
  obtain ⟨-, hall⟩ := consume_finds_iff replicatedPair _ _ s hs hfixed 0 _ book
    (by rw [hcalls]; rfl) rfl rfl hsent "b" (by simp [replicatedPair]) 1 2
  have hcall : s.calls.length = 1 := by simp [hcalls]
  rw [hcall] at hall
  refine (hall _ t ht hfixed₂ hcovers (by simp) ?_).1 ⟨"a", ["a", "b"], hnode, htargets, by simp⟩ ?_
  · rintro k ⟨c, hc, hack, -⟩
    rcases hop c (List.mem_of_getElem? hc) with h | h <;> cases hack.symm.trans h
  · intro c hc other hother hid
    rcases hop c hc with h | h
    · cases hother.symm.trans h
      exact ⟨rfl, rfl⟩
    · cases hother.symm.trans h

/-- One copy of each message: the node that published one, and holds it, cannot consume it. -/
theorem published_not_found :
    ∃ t, run { replicatedPair with replicationFactor := 1 }
        (boot { replicatedPair with replicationFactor := 1 } fun _ _ => 0)
        ([.publish "a" "jobs" "book" "m" 0, .consume "a" "jobs" 10 1, .deliver 0 2, .reply 1] :
          List (QueueAction String)) = some t ∧
      t.calls = [⟨"a", .publish ⟨"m", "jobs", "book", 0, 0, 0, false⟩, none,
        .returned (.published "m")⟩,
        ⟨"a", .consume "jobs" 10, none, .returned (.messages [])⟩] ∧
      (t.nodes "a").store.getQueueSize "jobs" = 1 := by
  have hrun : (run { replicatedPair with replicationFactor := 1 }
      (boot { replicatedPair with replicationFactor := 1 } fun _ _ => 0)
      ([.publish "a" "jobs" "book" "m" 0, .consume "a" "jobs" 10 1, .deliver 0 2, .reply 1] :
          List (QueueAction String))).any (fun t =>
      t.calls = [⟨"a", .publish ⟨"m", "jobs", "book", 0, 0, 0, false⟩, none,
        .returned (.published "m")⟩,
        ⟨"a", .consume "jobs" 10, none, .returned (.messages [])⟩] ∧
      (t.nodes "a").store.getQueueSize "jobs" = 1) = true := by
    decide +kernel
  obtain ⟨t, ht, h⟩ := (Option.any_eq_true _ _).mp hrun
  exact ⟨t, ht, of_decide_eq_true h⟩

end Pynchronize.QueueCluster
