import Pynchronize.Queue.Calls

/-!
# Messages on their way

What a step does to the stores: it adds a message, acks one, or leaves them
alone up to the counters. A property of messages that every publish and every
ack respects holds of all copies, in stores, in requests and in calls.
-/

namespace Pynchronize.QueueCluster

open Lib

variable {P : Type*} {cfg : QueueConfig}

/-! ## Stores -/

/-- The message comes into the store of node `n`. -/
def Adds (cfg : QueueConfig) (s : QueueCluster P) (a : QueueAction P) (n : String)
    (message : QueueMessage P) : Prop :=
  match a with
  | .publish i queueName payload messageId now =>
    i = n ∧ message = ⟨messageId, queueName, payload, now, 0, 0, false⟩ ∧ i ∈ cfg.nodes ∧
      ∃ targets, (s.nodes i).targetNodes cfg messageId = some targets ∧ i ∈ targets
  | .deliver j _ =>
    ∃ p, s.packets[j]? = some p ∧ p.stage = .inFlight ∧ p.dst = n ∧
      p.request = .publish message ∧ (s.nodes n).store.get message.id = none
  | _ => False

/-- The message is acked at node `n`. -/
def Acks (cfg : QueueConfig) (s : QueueCluster P) (a : QueueAction P) (n messageId : String) :
    Prop :=
  match a with
  | .ack i id => i = n ∧ id = messageId ∧ (∃ msg, (s.nodes i).store.get id = some msg) ∧
      ∃ targets, (s.nodes i).targetNodes cfg id = some targets ∧ i ∈ targets
  | .deliver j _ =>
    ∃ p, s.packets[j]? = some p ∧ p.stage = .inFlight ∧ p.dst = n ∧ p.request = .ack messageId
  | _ => False

/-- What a step can do to the store of a node. -/
inductive StoreStep (cfg : QueueConfig) (s : QueueCluster P) (a : QueueAction P) (n : String)
    (s' : QueueCluster P) : Prop
  | retains (h : MessageStore.Retains (s.nodes n).store (s'.nodes n).store)
  | adds {message : QueueMessage P} (hadds : Adds cfg s a n message)
      (h : (s'.nodes n).store = (s.nodes n).store.add cfg.hash message)
  | acks {messageId : String} (hacks : Acks cfg s a n messageId)
      (h : (s'.nodes n).store = ((s.nodes n).store.ack cfg.hash messageId).1)

theorem nodes_setNode_self (s : QueueCluster P) (i : String) (node : QueueNode P) :
    (s.setNode i node).nodes i = node := Function.update_self ..

theorem nodes_setNode_of_ne (s : QueueCluster P) {i n : String} (node : QueueNode P) (h : n ≠ i) :
    (s.setNode i node).nodes n = s.nodes n := Function.update_of_ne h ..

theorem nodes_startCall (cfg : QueueConfig) (s : QueueCluster P) (i : String) (op : QueueOp P)
    (object : Option (QueueMessage P)) (targets : List String) :
    (s.startCall cfg i op object targets).nodes = s.nodes :=
  (resumed (s.addCall ⟨i, op, object, .sending s.packets.length targets⟩) s.calls.length _ targets
    none).nodes

theorem storeStep_same {s s' : QueueCluster P} {a : QueueAction P} {n : String}
    (h : s'.nodes n = s.nodes n) : StoreStep cfg s a n s' :=
  .retains (h ▸ .refl _)

/-- Only the store of node `i` is touched. -/
theorem storeStep_setNode {s s' : QueueCluster P} {a : QueueAction P} {i : String}
    {node : QueueNode P} (hnodes : s'.nodes = (s.setNode i node).nodes)
    (h : s'.nodes i = node → StoreStep cfg s a i s') (n : String) : StoreStep cfg s a n s' := by
  by_cases heq : n = i
  · subst heq
    exact h (by rw [hnodes, nodes_setNode_self])
  · exact storeStep_same (by rw [hnodes, nodes_setNode_of_ne _ _ heq])

theorem storeStep_handle {s : QueueCluster P} {j : ℕ} {now : ℚ} {p : Packet P}
    (hj : s.packets[j]? = some p) (hstage : p.stage = .inFlight) (n : String) :
    StoreStep cfg s (.deliver j now) n (s.handle cfg j p now) := by
  obtain ⟨call, dst, request, stage⟩ := p
  cases request with
  | publish message =>
    refine storeStep_setNode (by rfl) (fun hnode => ?_) n
    unfold QueueNode.handlePublish at hnode
    cases hget : (s.nodes dst).store.get message.id with
    | some msg =>
      rw [hget] at hnode
      exact storeStep_same hnode
    | none =>
      rw [hget] at hnode
      exact .adds ⟨_, hj, hstage, rfl, rfl, hget⟩ (congrArg QueueNode.store hnode)
  | consume queueName limit =>
    refine storeStep_setNode (by rfl) (fun hnode => .retains ?_) n
    rw [hnode]
    exact QueueNode.retains_handleConsume now (s.nodes dst) queueName limit
  | ack messageId =>
    refine storeStep_setNode (by rfl) (fun hnode => ?_) n
    exact .acks ⟨_, hj, hstage, rfl, rfl⟩ (congrArg QueueNode.store hnode)

theorem storeStep {s s' : QueueCluster P} {a : QueueAction P} (h : Stepped cfg s a s')
    (n : String) : StoreStep cfg s a n s' := by
  cases h with
  | membership =>
    refine storeStep_setNode (by rfl) (fun hnode => .retains ?_) n
    rw [hnode]
    exact .refl _
  | publishHere hi ht hin =>
    refine storeStep_setNode (by rw [nodes_startCall]; rfl) (fun hnode => ?_) n
    exact .adds ⟨rfl, rfl, hi, _, ht, hin⟩ (congrArg QueueNode.store hnode)
  | publishAway => exact storeStep_same (by rw [nodes_startCall])
  | consumeHere =>
    refine storeStep_setNode (by rfl) (fun hnode => .retains ?_) n
    rw [hnode]
    exact QueueNode.retains_handleConsume ..
  | consumeAway => exact storeStep_same rfl
  | consumeNowhere => exact storeStep_same rfl
  | ackUnknown => exact storeStep_same rfl
  | ackHere hi hget ht hin =>
    refine storeStep_setNode (by rw [nodes_startCall]) (fun hnode => ?_) n
    exact .acks ⟨rfl, rfl, ⟨_, hget⟩, _, ht, hin⟩ (congrArg QueueNode.store hnode)
  | ackAway => exact storeStep_same (by rw [nodes_startCall])
  | redeliver =>
    refine storeStep_setNode (by rfl) (fun hnode => .retains ?_) n
    rw [hnode]
    exact QueueNode.retains_redeliver ..
  | deliver hj hstage => exact storeStep_handle hj hstage n
  | reply => exact storeStep_same (by rw [(resumed ..).nodes])
  | noReply => exact storeStep_same (by rw [(resumed ..).nodes])

/-- Where a stored message comes from. -/
inductive CopyFrom (cfg : QueueConfig) (s : QueueCluster P) (a : QueueAction P) (n id : String)
    (msg : QueueMessage P) : Prop
  | old {old : QueueMessage P} (hold : (s.nodes n).store.get id = some old)
      (hcontent : old.content = msg.content)
  | acked {old : QueueMessage P} (hold : (s.nodes n).store.get id = some old)
      (hacks : Acks cfg s a n id) (hmsg : msg = { old with acked := true })
  | added (hadds : Adds cfg s a n msg) (hid : msg.id = id)

theorem copyFrom {s s' : QueueCluster P} {a : QueueAction P} (h : Stepped cfg s a s')
    {n id : String} {msg : QueueMessage P} (hget : (s'.nodes n).store.get id = some msg) :
    CopyFrom cfg s a n id msg := by
  cases storeStep h n with
  | retains hr =>
    obtain ⟨old, hold, heq⟩ := hr.get' hget
    exact .old hold heq
  | adds hadds hstore =>
    rw [hstore, MessageStore.get_add] at hget
    split at hget
    · rename_i heq
      obtain rfl := Option.some.inj hget
      exact .added hadds heq
    · exact .old hget rfl
  | acks hacks hstore =>
    rw [hstore, MessageStore.get_ack] at hget
    split at hget
    · rename_i heq
      subst heq
      obtain ⟨old, hold, rfl⟩ := Option.map_eq_some_iff.mp hget
      exact .acked hold hacks rfl
    · exact .old hget rfl

/-! ## Calls and requests -/

/-- An old call with its message, or a new one. -/
inductive CallFrom (s : QueueCluster P) (a : QueueAction P) (c' : QueueCall P) : Prop
  | old {c : QueueCall P} (hmem : c ∈ s.calls) (hnode : c'.node = c.node) (hop : c'.op = c.op)
      (hobject : c'.object = c.object ∨
        ∃ message, c.op = .publish message ∧ c'.object = some (s.current c message))
  | new (hobject : ∀ object, c'.object = some object → c'.op = .publish object)
      (hop : ∀ message, c'.op = .publish message → ∃ i queueName payload messageId now,
        a = .publish i queueName payload messageId now ∧
        message = ⟨messageId, queueName, payload, now, 0, 0, false⟩)

theorem callFrom_same {s : QueueCluster P} {a : QueueAction P} {c : QueueCall P}
    (h : c ∈ s.calls) : CallFrom s a c :=
  .old h rfl rfl (Or.inl rfl)

theorem callFrom_of_calls {s s' : QueueCluster P} {a : QueueAction P} (h : s'.calls = s.calls) :
    ∀ c ∈ s'.calls, CallFrom s a c :=
  fun _ hc => callFrom_same (h ▸ hc)

theorem callFrom_detach {s : QueueCluster P} {a : QueueAction P} {c : QueueCall P}
    (i messageId : String) (h : c ∈ s.calls) : CallFrom s a (s.detach i messageId c) := by
  rcases s.detach_cases i messageId c with heq | ⟨message, hop, -, -, heq⟩
  · rw [heq]
    exact callFrom_same h
  · rw [heq]
    exact .old h rfl rfl (Or.inr ⟨message, hop, rfl⟩)

theorem callFrom_startCall {s t : QueueCluster P} {a : QueueAction P} {i : String}
    {op : QueueOp P} {object : Option (QueueMessage P)} {targets : List String}
    (hold : ∀ c ∈ t.calls, CallFrom s a c) (hnew : ∀ stage, CallFrom s a ⟨i, op, object, stage⟩) :
    ∀ c ∈ (t.startCall cfg i op object targets).calls, CallFrom s a c := by
  obtain ⟨stage, hcalls, -⟩ := t.calls_startCall cfg i op object targets
  intro c hc
  rw [hcalls] at hc
  rcases List.mem_append.mp hc with hc | hc
  · exact hold c hc
  · exact List.mem_singleton.mp hc ▸ hnew stage

theorem callFrom_append {s s' : QueueCluster P} {a : QueueAction P} {c : QueueCall P}
    (hcalls : s'.calls = s.calls ++ [c]) (hnew : CallFrom s a c) :
    ∀ c ∈ s'.calls, CallFrom s a c := by
  intro c hc
  rw [hcalls] at hc
  rcases List.mem_append.mp hc with hc | hc
  · exact callFrom_same hc
  · exact List.mem_singleton.mp hc ▸ hnew

theorem callFrom_resumed {s s' : QueueCluster P} {a : QueueAction P} {k : ℕ} {call : QueueCall P}
    {rest : List String} {response : Option (List (QueueMessage P))}
    (h : Resumed cfg s k call rest response s') (hk : s.calls[k]? = some call) :
    ∀ c ∈ s'.calls, CallFrom s a c := by
  obtain ⟨stage, hcalls, -, -⟩ := h.calls
  intro c hc
  rw [hcalls] at hc
  rcases List.mem_or_eq_of_mem_set hc with hc | rfl
  · exact callFrom_same hc
  · exact .old (List.mem_of_getElem? hk) rfl rfl (Or.inl rfl)

theorem callFrom_step {s s' : QueueCluster P} {a : QueueAction P} (h : Stepped cfg s a s') :
    ∀ c ∈ s'.calls, CallFrom s a c := by
  cases h with
  | membership => exact callFrom_of_calls rfl
  | @publishHere i queueName messageId payload now =>
    refine callFrom_startCall (fun c hc => ?_) fun stage => .new (fun _ h => by cases h) ?_
    · obtain ⟨old, hold, rfl⟩ := List.mem_map.mp hc
      exact callFrom_detach _ _ hold
    · rintro _ ⟨⟩
      exact ⟨i, queueName, payload, messageId, now, rfl, rfl⟩
  | @publishAway i queueName messageId payload now =>
    refine callFrom_startCall (callFrom_of_calls rfl) fun stage => .new ?_ ?_
    · rintro _ ⟨⟩
      rfl
    · rintro _ ⟨⟩
      exact ⟨i, queueName, payload, messageId, now, rfl, rfl⟩
  | consumeHere =>
    exact callFrom_append rfl (.new (fun _ h => by cases h) fun _ h => by cases h)
  | @consumeAway i queueName nodeId limit now =>
    exact callFrom_append
      (c := ⟨i, .consume queueName limit, none, .sending s.packets.length []⟩)
      (set_concat_length ..) (.new (fun _ h => by cases h) fun _ h => by cases h)
  | consumeNowhere =>
    exact callFrom_append rfl (.new (fun _ h => by cases h) fun _ h => by cases h)
  | ackUnknown => exact callFrom_append rfl (.new (fun _ h => by cases h) fun _ h => by cases h)
  | ackHere =>
    exact callFrom_startCall (callFrom_of_calls rfl) fun stage =>
      .new (fun _ h => by cases h) fun _ h => by cases h
  | ackAway =>
    exact callFrom_startCall (callFrom_of_calls rfl) fun stage =>
      .new (fun _ h => by cases h) fun _ h => by cases h
  | redeliver => exact callFrom_of_calls rfl
  | deliver => exact callFrom_of_calls rfl
  | reply hk => exact callFrom_resumed (resumed ..) hk
  | noReply hk => exact callFrom_resumed (resumed ..) hk

/-- An old request, or the one a call has just sent. -/
inductive PacketFrom (cfg : QueueConfig) (s s' : QueueCluster P) (p' : Packet P) : Prop
  | old {p : Packet P} (hmem : p ∈ s.packets) (hcall : p'.call = p.call) (hdst : p'.dst = p.dst)
      (hrequest : p'.request = p.request)
  | new {c : QueueCall P} (hcall : s'.calls[p'.call]? = some c) (hdst : p'.dst ∈ cfg.nodes)
      (hask : s'.Asks c p'.request) (hfailed : c.stage ≠ .returned (.acked false))

theorem packetFrom_same {s s' : QueueCluster P} {p : Packet P} (h : p ∈ s.packets) :
    PacketFrom cfg s s' p :=
  .old h rfl rfl rfl

theorem packetFrom_of_packets {s s' : QueueCluster P} (h : s'.packets = s.packets) :
    ∀ p ∈ s'.packets, PacketFrom cfg s s' p :=
  fun _ hp => packetFrom_same (h ▸ hp)

theorem packetFrom_resumed {s t t' : QueueCluster P} {k : ℕ} {call : QueueCall P}
    {rest : List String} {response : Option (List (QueueMessage P))}
    (h : Resumed cfg t k call rest response t') (hk : k < t.calls.length)
    (hpackets : t.packets = s.packets) : ∀ p ∈ t'.packets, PacketFrom cfg s t' p := by
  cases h with
  | returns => exact fun p hp => packetFrom_same (hpackets ▸ hp)
  | @sends nodeId rest' request hask hv =>
    intro p hp
    rcases List.mem_append.mp hp with hp | hp
    · exact packetFrom_same (hpackets ▸ hp)
    · obtain rfl := List.mem_singleton.mp hp
      refine .new (c := { call with stage := .sending t.packets.length rest' })
        (List.getElem?_set_self hk) hv.1 ?_ (by simp)
      exact hask

theorem packetFrom_startCall {s t : QueueCluster P} {i : String} {op : QueueOp P}
    {object : Option (QueueMessage P)} {targets : List String}
    (hpackets : t.packets = s.packets) :
    ∀ p ∈ (t.startCall cfg i op object targets).packets,
      PacketFrom cfg s (t.startCall cfg i op object targets) p :=
  packetFrom_resumed (resumed (t.addCall ⟨i, op, object, .sending t.packets.length targets⟩)
    t.calls.length _ targets none) (by simp [addCall]) hpackets

theorem packetFrom_step {s s' : QueueCluster P} {a : QueueAction P} (h : Stepped cfg s a s') :
    ∀ p ∈ s'.packets, PacketFrom cfg s s' p := by
  cases h with
  | membership => exact packetFrom_of_packets rfl
  | publishHere => exact packetFrom_startCall rfl
  | publishAway => exact packetFrom_startCall rfl
  | consumeHere => exact packetFrom_of_packets rfl
  | @consumeAway i queueName nodeId limit now hi hr hne hn =>
    intro p hp
    rcases List.mem_append.mp hp with hp | hp
    · exact packetFrom_same hp
    · obtain rfl := List.mem_singleton.mp hp
      exact .new (c := ⟨i, .consume queueName limit, none, .sending s.packets.length []⟩)
        (List.getElem?_set_self (by simp [addCall])) hn rfl (by simp)
  | consumeNowhere => exact packetFrom_of_packets rfl
  | ackUnknown => exact packetFrom_of_packets rfl
  | ackHere => exact packetFrom_startCall rfl
  | ackAway => exact packetFrom_startCall rfl
  | redeliver => exact packetFrom_of_packets rfl
  | @deliver j now p hj hstage =>
    intro p' hp'
    rcases List.mem_or_eq_of_mem_set hp' with hp' | rfl
    · exact packetFrom_same hp'
    · exact .old (List.mem_of_getElem? hj) rfl rfl rfl
  | reply hk => exact packetFrom_resumed (resumed ..) (List.getElem?_eq_some_iff.mp hk).1 rfl
  | noReply hk => exact packetFrom_resumed (resumed ..) (List.getElem?_eq_some_iff.mp hk).1 rfl

/-! ## All copies of a message -/

/-- `Q` holds of the messages in stores, in requests and in calls. -/
structure Everywhere (Q : QueueMessage P → Prop) (s : QueueCluster P) : Prop where
  stores : ∀ n id msg, (s.nodes n).store.get id = some msg → Q msg
  packets : ∀ p ∈ s.packets, ∀ message, p.request = .publish message → Q message
  calls : ∀ c ∈ s.calls, ∀ message, c.op = .publish message →
    Q message ∧ ∀ object, c.object = some object → Q object

variable {Q : QueueMessage P → Prop} {s s' : QueueCluster P} {a : QueueAction P}

theorem current_of {c : QueueCall P} {message : QueueMessage P}
    (hstores : ∀ n id msg, (s.nodes n).store.get id = some msg → Q msg) (hmessage : Q message)
    (hobject : ∀ object, c.object = some object → Q object) : Q (s.current c message) := by
  unfold current
  split
  · rename_i object h
    exact hobject object h
  · cases hget : (s.nodes c.node).store.get message.id with
    | none => exact hmessage
    | some msg => exact hstores _ _ msg hget

theorem Everywhere.step (he : Everywhere Q s) (h : Stepped cfg s a s')
    (hcontent : ∀ msg msg' : QueueMessage P, msg.content = msg'.content → Q msg → Q msg')
    (hnew : ∀ i queueName payload messageId now,
      a = .publish i queueName payload messageId now →
        Q ⟨messageId, queueName, payload, now, 0, 0, false⟩)
    (hack : ∀ n messageId, Acks cfg s a n messageId → ∀ msg,
      (s.nodes n).store.get messageId = some msg → Q { msg with acked := true }) :
    Everywhere Q s' := by
  have hstores : ∀ n id msg, (s'.nodes n).store.get id = some msg → Q msg := by
    intro n id msg hget
    cases copyFrom h hget with
    | old hold heq => exact hcontent _ msg heq (he.stores n id _ hold)
    | acked hold hacks hmsg => exact hmsg ▸ hack n id hacks _ hold
    | added hadds =>
      cases a with
      | publish i queueName payload messageId now =>
        obtain ⟨-, rfl, -⟩ := hadds
        exact hnew _ _ _ _ _ rfl
      | deliver j now =>
        obtain ⟨p, hj, -, -, hrequest, -⟩ := hadds
        exact he.packets p (List.mem_of_getElem? hj) _ hrequest
      | _ => exact False.elim hadds
  have hcalls : ∀ c ∈ s'.calls, ∀ message, c.op = .publish message →
      Q message ∧ ∀ object, c.object = some object → Q object := by
    intro c hc message hop
    cases callFrom_step h c hc with
    | old hmem hnode hsame hobject =>
      obtain ⟨hmessage, hold⟩ := he.calls _ hmem message (hsame.symm.trans hop)
      refine ⟨hmessage, fun object ho => ?_⟩
      rcases hobject with hobject | ⟨message', hop', hobject⟩
      · exact hold object (hobject.symm.trans ho)
      · obtain rfl := Option.some.inj (hobject.symm.trans ho)
        exact current_of he.stores (he.calls _ hmem message' hop').1 hold
    | new hobject hpublish =>
      obtain ⟨i, queueName, payload, messageId, now, ha, rfl⟩ := hpublish message hop
      refine ⟨hnew i queueName payload messageId now ha, fun object ho => ?_⟩
      cases hop.symm.trans (hobject object ho)
      exact hnew i queueName payload messageId now ha
  refine ⟨hstores, fun p hp message hrequest => ?_, hcalls⟩
  cases packetFrom_step h p hp with
  | old hmem hcall hdst hsame => exact he.packets _ hmem message (hsame.symm.trans hrequest)
  | @new c' hcall hdst hask hfailed =>
    unfold Asks at hask
    rw [hrequest] at hask
    split at hask
    · rename_i message' hop
      cases hask
      obtain ⟨hmessage, hobject⟩ := hcalls c' (List.mem_of_getElem? hcall) message' hop
      exact current_of hstores hmessage hobject
    · cases hask
    · cases hask

/-! ## Ids and addresses -/

/-- The request is one of the operation. -/
def Matches (op : QueueOp P) (request : QueueRequest P) : Prop :=
  match op with
  | .publish message => ∃ message', request = .publish message' ∧ message'.id = message.id
  | .ack messageId => request = .ack messageId
  | .consume queueName limit => request = .consume queueName limit

/-- Messages are stored under their ids and on configured nodes, and every request belongs to the
    call that sent it. -/
structure Wired (cfg : QueueConfig) (s : QueueCluster P) : Prop where
  keyed : ∀ n, (s.nodes n).store.Keyed
  stored : ∀ n id msg, (s.nodes n).store.get id = some msg → n ∈ cfg.nodes
  objects : ∀ c ∈ s.calls, ∀ message object, c.op = .publish message →
    c.object = some object → object.id = message.id
  packets : ∀ p ∈ s.packets, p.dst ∈ cfg.nodes ∧ ∃ c, s.calls[p.call]? = some c ∧
    Matches c.op p.request ∧ c.stage ≠ .returned (.acked false)

theorem current_id {c : QueueCall P} {message : QueueMessage P}
    (hkeyed : ∀ n, (s.nodes n).store.Keyed)
    (hobject : ∀ object, c.object = some object → object.id = message.id) :
    (s.current c message).id = message.id := by
  unfold current
  split
  · rename_i object h
    exact hobject object h
  · cases hget : (s.nodes c.node).store.get message.id with
    | none => rfl
    | some msg => exact hkeyed _ _ msg hget

theorem Wired.adds (hw : Wired cfg s) {n : String} {message : QueueMessage P}
    (h : Adds cfg s a n message) : n ∈ cfg.nodes := by
  cases a with
  | publish i queueName payload messageId now =>
    obtain ⟨rfl, -, hi, -⟩ := h
    exact hi
  | deliver j now =>
    obtain ⟨p, hj, -, rfl, -⟩ := h
    exact (hw.packets p (List.mem_of_getElem? hj)).1
  | _ => exact False.elim h

theorem Wired.step (hw : Wired cfg s) (h : Stepped cfg s a s') : Wired cfg s' := by
  have hkeyed : ∀ n, (s'.nodes n).store.Keyed := by
    intro n id msg hget
    cases copyFrom h hget with
    | @old old hold heq =>
      have hid : old.id = id := hw.keyed n id old hold
      exact (QueueMessage.content_eq_iff.mp heq).1.symm.trans hid
    | @acked old hold hacks hmsg =>
      have hid : old.id = id := hw.keyed n id old hold
      exact (congrArg QueueMessage.id hmsg).trans hid
    | added hadds hid => exact hid
  have hobjects : ∀ c ∈ s'.calls, ∀ message object, c.op = .publish message →
      c.object = some object → object.id = message.id := by
    intro c hc message object hop ho
    cases callFrom_step h c hc with
    | old hmem hnode hsame hobject =>
      have hop := hsame.symm.trans hop
      rcases hobject with hobject | ⟨message', hop', hobject⟩
      · exact hw.objects _ hmem message object hop (hobject.symm.trans ho)
      · cases hop.symm.trans hop'
        obtain rfl := Option.some.inj (hobject.symm.trans ho)
        exact current_id hw.keyed fun object => hw.objects _ hmem message object hop
    | new hobject =>
      cases hop.symm.trans (hobject object ho)
      rfl
  refine ⟨hkeyed, fun n id msg hget => ?_, hobjects, fun p hp => ?_⟩
  · cases copyFrom h hget with
    | old hold => exact hw.stored n id _ hold
    | acked hold => exact hw.stored n id _ hold
    | added hadds => exact hw.adds hadds
  · cases packetFrom_step h p hp with
    | old hmem hcall hdst hrequest =>
      obtain ⟨hin, c, hc, hmatch, hfailed⟩ := hw.packets _ hmem
      obtain ⟨c', hc', hcont⟩ := (callsStep h).old _ c hc
      refine ⟨hdst ▸ hin, c', hcall ▸ hc', ?_, fun hf => hfailed (hcont.failed hf)⟩
      rw [hcont.op, hrequest]
      exact hmatch
    | @new c' hcall hdst hask hfailed =>
      refine ⟨hdst, c', hcall, ?_, hfailed⟩
      unfold Asks at hask
      split at hask <;> rename_i hop <;> unfold Matches <;> rw [hop]
      · exact ⟨_, hask, current_id hkeyed fun object =>
          hobjects c' (List.mem_of_getElem? hcall) _ object hop⟩
      · exact hask
      · exact hask

theorem wired_boot (clock : String → String → ℚ) : Wired (P := P) cfg (boot cfg clock) where
  keyed _ _ _ h := by cases h
  stored _ _ _ h := by cases h
  objects _ h := absurd h List.not_mem_nil
  packets _ h := absurd h List.not_mem_nil

theorem everywhere_boot (clock : String → String → ℚ) : Everywhere Q (boot cfg clock) where
  stores _ _ _ h := by cases h
  packets _ h := absurd h List.not_mem_nil
  calls _ h := absurd h List.not_mem_nil

end Pynchronize.QueueCluster
