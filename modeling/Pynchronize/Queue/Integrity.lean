import Pynchronize.Queue.Delivery

/-!
# What comes out of a queue

Whatever is lost, late or sent twice, and whatever the rings look like: what
`consume` returns has been published, and is not acked. It comes from the right
queue, and at most once in one answer, as long as no id is published twice.
-/

namespace Pynchronize

open Lib

variable {P : Type*} {cfg : QueueConfig}

namespace MessageStore

/-- `get_pending` goes through the queue in its order. -/
theorem sublist_collectPending {s : MessageStore P} (hkeyed : s.Keyed) (limit : ℤ)
    (ids : List String) (result : List (QueueMessage P)) :
    ∃ taken, List.Sublist taken ids ∧
      (s.collectPending limit ids result).map QueueMessage.id =
        result.map QueueMessage.id ++ taken := by
  induction ids generalizing result with
  | nil => exact ⟨[], .slnil, by simp [collectPending]⟩
  | cons id ids ih =>
    unfold collectPending
    cases hget : s.messages.get? id with
    | none =>
      obtain ⟨taken, hsub, heq⟩ := ih result
      exact ⟨taken, hsub.cons id, heq⟩
    | some msg =>
      dsimp only
      split
      · obtain ⟨taken, hsub, heq⟩ := ih result
        exact ⟨taken, hsub.cons id, heq⟩
      · obtain ⟨taken, hsub, heq⟩ := ih (result ++ [msg])
        have hid : msg.id = id := hkeyed id msg hget
        split
        · exact ⟨[id], (List.nil_sublist ids).cons_cons id, by simp [hid]⟩
        · exact ⟨id :: taken, hsub.cons_cons id, by simp [heq, hid]⟩

theorem sublist_filterMap_get {s : MessageStore P} (hkeyed : s.Keyed) (ids : List String) :
    List.Sublist ((ids.filterMap s.get).map QueueMessage.id) ids := by
  induction ids with
  | nil => exact .slnil
  | cons id ids ih =>
    rw [List.filterMap_cons]
    cases hget : s.get id with
    | none => exact ih.cons id
    | some msg =>
      rw [List.map_cons, hkeyed id msg hget]
      exact ih.cons_cons id

theorem Retains.keyed {s s' : MessageStore P} (h : Retains s s') (hkeyed : s.Keyed) :
    s'.Keyed := by
  intro id msg hget
  obtain ⟨old, hold, hcontent⟩ := h.get' hget
  exact (QueueMessage.content_eq_iff.mp hcontent).1.symm.trans (hkeyed id old hold)

end MessageStore

def QueueOp.publishedId : QueueOp P → Option String
  | .publish message => some message.id
  | _ => none

namespace QueueCluster

/-! ## What a node hands out -/

/-- Some call of `publish` made this message. -/
def Made (s : QueueCluster P) (msg : QueueMessage P) : Prop :=
  ∃ c ∈ s.calls, ∃ message, c.op = .publish message ∧ message.id = msg.id ∧
    message.queueName = msg.queueName ∧ message.payload = msg.payload ∧
    message.createdAt = msg.createdAt

/-- The ids of the calls of `publish`, in the order in which they began. -/
def publishedIds (s : QueueCluster P) : List String :=
  (s.calls.map QueueCall.op).filterMap QueueOp.publishedId

/-- An answer to a `consume`. -/
structure Served (s : QueueCluster P) (queueName : String) (messages : List (QueueMessage P)) :
    Prop where
  published : ∀ msg ∈ messages, Made s msg ∧ msg.acked = false
  own : s.publishedIds.Nodup →
    (∀ msg ∈ messages, msg.queueName = queueName) ∧ (messages.map QueueMessage.id).Nodup

/-- Every queue lists stored messages of its own, each of them once. -/
def Filed (n : QueueNode P) : Prop :=
  ∀ queueName, (n.store.queue queueName).Nodup ∧
    ∀ id ∈ n.store.queue queueName, ∃ msg, n.store.get id = some msg ∧ msg.queueName = queueName

theorem served_handleConsume {s : QueueCluster P} (now : ℚ) {n : QueueNode P}
    (hkeyed : n.store.Keyed) (hpublished : ∀ id msg, n.store.get id = some msg → Made s msg)
    (hfiled : s.publishedIds.Nodup → Filed n) (queueName : String) (limit : ℤ) :
    Served s queueName (n.handleConsume now queueName limit).2 := by
  have hretains := QueueNode.retains_handleConsume now n queueName limit
  obtain ⟨taken, hsub, htaken⟩ :=
    MessageStore.sublist_collectPending hkeyed limit (n.store.queue queueName) []
  rw [List.map_nil, List.nil_append] at htaken
  -- an id that is taken is the one of a pending message of the queue
  have hpending : ∀ id ∈ taken, ∃ old, n.store.get id = some old ∧ old.acked = false := by
    intro id hid
    rw [← htaken] at hid
    obtain ⟨old, hold, rfl⟩ := List.mem_map.mp hid
    obtain ⟨id', -, hget, hacked⟩ := MessageStore.mem_getPending hold
    obtain rfl : old.id = id' := hkeyed id' old hget
    exact ⟨old, hget, hacked⟩
  have hmessages : (n.handleConsume now queueName limit).2 =
      taken.filterMap (n.handleConsume now queueName limit).1.store.get := by
    rw [← htaken]
    rfl
  have hmem : ∀ msg ∈ (n.handleConsume now queueName limit).2, ∃ id ∈ taken, ∃ old,
      n.store.get id = some old ∧ old.acked = false ∧ old.content = msg.content := by
    intro msg hmsg
    rw [hmessages] at hmsg
    obtain ⟨id, hid, hget⟩ := List.mem_filterMap.mp hmsg
    obtain ⟨old, hold, hacked⟩ := hpending id hid
    obtain ⟨msg', hget', hcontent⟩ := hretains.get hold
    obtain rfl := Option.some.inj (hget'.symm.trans hget)
    exact ⟨id, hid, old, hold, hacked, hcontent.symm⟩
  refine ⟨fun msg hmsg => ?_, fun hdistinct => ⟨fun msg hmsg => ?_, ?_⟩⟩
  · obtain ⟨id, -, old, hold, hacked, hcontent⟩ := hmem msg hmsg
    obtain ⟨hid, hqueue, hpayload, hcreated, hacked'⟩ := QueueMessage.content_eq_iff.mp hcontent
    obtain ⟨c, hc, message, hop, h⟩ := hpublished id old hold
    rw [hid, hqueue, hpayload, hcreated] at h
    exact ⟨⟨c, hc, message, hop, h⟩, hacked' ▸ hacked⟩
  · obtain ⟨id, hid, old, hold, -, hcontent⟩ := hmem msg hmsg
    obtain ⟨old', hold', hqueue⟩ := (hfiled hdistinct queueName).2 id (hsub.subset hid)
    obtain rfl := Option.some.inj (hold.symm.trans hold')
    rw [← (QueueMessage.content_eq_iff.mp hcontent).2.1, hqueue]
  · have hids : List.Sublist ((n.handleConsume now queueName limit).2.map QueueMessage.id)
        taken := by
      rw [hmessages]
      exact MessageStore.sublist_filterMap_get (hretains.keyed hkeyed) taken
    exact ((hfiled hdistinct queueName).1.sublist hsub).sublist hids

/-! ## The calls so far -/

variable {s s' : QueueCluster P} {a : QueueAction P}

theorem prefix_op_step (h : Stepped cfg s a s') :
    s.calls.map QueueCall.op <+: s'.calls.map QueueCall.op := by
  rw [List.prefix_iff_getElem?]
  intro k hk
  rw [List.length_map] at hk
  obtain ⟨c', hc', hcont⟩ := (callsStep h).old k _ (List.getElem?_eq_getElem hk)
  rw [List.getElem?_map, hc', List.getElem_map]
  exact congrArg some hcont.op

theorem publishedIds_step (h : Stepped cfg s a s') (hdistinct : s'.publishedIds.Nodup) :
    s.publishedIds.Nodup :=
  hdistinct.sublist ((prefix_op_step h).sublist.filterMap _)

theorem publishedIds_publish {i queueName messageId : String} {payload : P} {now : ℚ}
    (h : Stepped cfg s (.publish i queueName payload messageId now) s') :
    s'.publishedIds = s.publishedIds ++ [messageId] := by
  cases h with
  | @publishHere _ _ _ _ _ targets =>
    obtain ⟨stage, hcalls, -⟩ := calls_startCall cfg
      (s.store cfg i ⟨messageId, queueName, payload, now, 0, 0, false⟩) i
      (.publish ⟨messageId, queueName, payload, now, 0, 0, false⟩) none targets
    have hops : (s.calls.map (s.detach i messageId)).map QueueCall.op =
        s.calls.map QueueCall.op := by
      rw [List.map_map]
      exact List.map_congr_left fun c _ => (s.continues_detach i messageId c).op
    unfold publishedIds
    rw [hcalls, List.map_append, List.filterMap_append]
    exact congrArg (fun ops => ops.filterMap QueueOp.publishedId ++ [messageId]) hops
  | @publishAway _ _ _ _ _ targets =>
    obtain ⟨stage, hcalls, -⟩ := calls_startCall cfg s i
      (.publish ⟨messageId, queueName, payload, now, 0, 0, false⟩)
      (some ⟨messageId, queueName, payload, now, 0, 0, false⟩) targets
    unfold publishedIds
    rw [hcalls, List.map_append, List.filterMap_append]
    rfl

theorem Made.step {msg : QueueMessage P} (hm : Made s msg) (h : Stepped cfg s a s') :
    Made s' msg := by
  obtain ⟨c, hc, message, hop, hsame⟩ := hm
  obtain ⟨k, hk⟩ := List.mem_iff_getElem?.mp hc
  obtain ⟨c', hc', hcont⟩ := (callsStep h).old k c hk
  exact ⟨c', List.mem_of_getElem? hc', message, hcont.op.trans hop, hsame⟩

theorem Made.mem_publishedIds {msg : QueueMessage P} (hm : Made s msg) :
    msg.id ∈ s.publishedIds := by
  obtain ⟨c, hc, message, hop, hid, -⟩ := hm
  refine List.mem_filterMap.mpr ⟨c.op, List.mem_map_of_mem hc, ?_⟩
  rw [hop, ← hid]
  rfl

theorem Served.step {queueName : String} {messages : List (QueueMessage P)}
    (hs : Served s queueName messages) (h : Stepped cfg s a s') :
    Served s' queueName messages :=
  ⟨fun msg hmsg => ⟨(hs.published msg hmsg).1.step h, (hs.published msg hmsg).2⟩,
    fun hdistinct => hs.own (publishedIds_step h hdistinct)⟩

theorem served_nil (s : QueueCluster P) (queueName : String) : Served s queueName [] :=
  ⟨List.forall_mem_nil _, fun _ => ⟨List.forall_mem_nil _, List.nodup_nil⟩⟩

theorem everywhere_made (he : Everywhere (Made s) s) (h : Stepped cfg s a s') :
    Everywhere (Made s') s' := by
  have hmade : Everywhere (Made s') s :=
    ⟨fun n id msg hget => (he.stores n id msg hget).step h,
      fun p hp message hrequest => (he.packets p hp message hrequest).step h,
      fun c hc message hop => ⟨((he.calls c hc message hop).1).step h,
        fun object ho => ((he.calls c hc message hop).2 object ho).step h⟩⟩
  refine hmade.step h ?_ ?_ ?_
  · intro msg msg' hcontent hm
    obtain ⟨hid, hqueue, hpayload, hcreated, -⟩ := QueueMessage.content_eq_iff.mp hcontent
    obtain ⟨c, hc, message, hop, hsame⟩ := hm
    rw [hid, hqueue, hpayload, hcreated] at hsame
    exact ⟨c, hc, message, hop, hsame⟩
  · rintro i queueName payload messageId now rfl
    obtain ⟨c, hc, hop⟩ := exists_publish h
    exact ⟨c, hc, _, hop, rfl, rfl, rfl, rfl⟩
  · exact fun n messageId _ msg hget => hmade.stores n messageId msg hget

/-! ## The stores -/

theorem filed_step (he : Everywhere (Made s) s) (hw : Wired cfg s) (h : Stepped cfg s a s')
    (hdistinct : s'.publishedIds.Nodup) {n : String} (hf : Filed (s.nodes n)) :
    Filed (s'.nodes n) := by
  cases storeStep h n with
  | retains hr =>
    intro queueName
    rw [hr.queue]
    refine ⟨(hf queueName).1, fun id hid => ?_⟩
    obtain ⟨old, hold, hqueue⟩ := (hf queueName).2 id hid
    obtain ⟨msg, hget, hcontent⟩ := hr.get hold
    exact ⟨msg, hget, (QueueMessage.content_eq_iff.mp hcontent).2.1.trans hqueue⟩
  | @adds message hadds hstore =>
    -- the id is new to the node
    have hnew : (s.nodes n).store.get message.id = none := by
      cases a with
      | publish i queueName payload messageId now =>
        obtain ⟨-, rfl, -⟩ := hadds
        rw [publishedIds_publish h] at hdistinct
        cases hget : (s.nodes n).store.get messageId with
        | none => rfl
        | some msg =>
          have hmem := (he.stores n messageId msg hget).mem_publishedIds
          rw [hw.keyed n messageId msg hget] at hmem
          exact absurd (List.mem_singleton_self _)
            (List.disjoint_of_nodup_append hdistinct hmem)
      | deliver j now =>
        obtain ⟨p, -, -, -, -, hget⟩ := hadds
        exact hget
      | _ => exact False.elim hadds
    have hunlisted : ∀ queueName, message.id ∉ (s.nodes n).store.queue queueName := by
      intro queueName hid
      obtain ⟨msg, hget, -⟩ := (hf queueName).2 _ hid
      rw [hnew] at hget
      cases hget
    intro queueName
    rw [hstore, MessageStore.queue_add]
    have hkept : ∀ id ∈ (s.nodes n).store.queue queueName, ∃ msg,
        ((s.nodes n).store.add cfg.hash message).get id = some msg ∧
          msg.queueName = queueName := by
      intro id hid
      obtain ⟨msg, hget, hqueue⟩ := (hf queueName).2 id hid
      rw [MessageStore.get_add, if_neg fun heq : message.id = id => hunlisted _ (heq ▸ hid)]
      exact ⟨msg, hget, hqueue⟩
    split
    · rename_i hqueue
      refine ⟨(List.nodup_append_comm.mp
        (List.nodup_cons.mpr ⟨hunlisted queueName, (hf queueName).1⟩)), fun id hid => ?_⟩
      rcases List.mem_append.mp hid with hid | hid
      · exact hkept id hid
      · rw [List.mem_singleton.mp hid, MessageStore.get_add, if_pos rfl]
        exact ⟨message, rfl, hqueue⟩
    · exact ⟨(hf queueName).1, hkept⟩
  | acks hacks hstore =>
    intro queueName
    rw [hstore]
    simp only [MessageStore.ack, MessageStore.queue_edit]
    refine ⟨(hf queueName).1, fun id hid => ?_⟩
    obtain ⟨old, hold, hqueue⟩ := (hf queueName).2 id hid
    rw [MessageStore.get_edit]
    split
    · exact ⟨{ old with acked := true }, by rw [hold]; rfl, hqueue⟩
    · exact ⟨old, hold, hqueue⟩

/-! ## Requests and answers -/

/-- Requests stay where they are, and are handled when they are delivered. -/
theorem packets_before (h : Stepped cfg s a s') {j : ℕ} {p' : Packet P}
    (hj : s'.packets[j]? = some p') : p'.stage = .inFlight ∨ ∃ p, s.packets[j]? = some p ∧
      p'.request = p.request ∧ (p'.stage = p.stage ∨ ∃ now, a = .deliver j now ∧
        s' = s.handle cfg j p now) := by
  have hsame : ∀ {t : QueueCluster P}, t.packets = s.packets → t.packets[j]? = some p' →
      p'.stage = .inFlight ∨ ∃ p, s.packets[j]? = some p ∧ p'.request = p.request ∧
        (p'.stage = p.stage ∨ ∃ now, a = .deliver j now ∧ s' = s.handle cfg j p now) :=
    fun ht hj => Or.inr ⟨p', ht ▸ hj, rfl, Or.inl rfl⟩
  have hresumed : ∀ {t t' : QueueCluster P} {k call rest response},
      Resumed cfg t k call rest response t' → t.packets = s.packets → t'.packets[j]? = some p' →
      p'.stage = .inFlight ∨ ∃ p, s.packets[j]? = some p ∧ p'.request = p.request ∧
        (p'.stage = p.stage ∨ ∃ now, a = .deliver j now ∧ s' = s.handle cfg j p now) := by
    intro t t' k call rest response hr ht hj
    cases hr with
    | returns => exact hsame ht hj
    | sends =>
      rcases getElem?_concat_cases hj with hold | ⟨-, rfl⟩
      · exact hsame ht hold
      · exact Or.inl rfl
  have hstart : ∀ {t : QueueCluster P} {i op object targets},
      (t.startCall cfg i op object targets).packets[j]? = some p' → t.packets = s.packets →
      p'.stage = .inFlight ∨ ∃ p, s.packets[j]? = some p ∧ p'.request = p.request ∧
        (p'.stage = p.stage ∨ ∃ now, a = .deliver j now ∧ s' = s.handle cfg j p now) :=
    fun {t i op object targets} hj ht => hresumed
      (resumed (t.addCall ⟨i, op, object, .sending t.packets.length targets⟩) t.calls.length _
        targets none) ht hj
  cases h with
  | membership => exact hsame rfl hj
  | publishHere => exact hstart hj rfl
  | publishAway => exact hstart hj rfl
  | consumeHere => exact hsame rfl hj
  | consumeAway =>
    rcases getElem?_concat_cases hj with hold | ⟨-, rfl⟩
    · exact hsame rfl hold
    · exact Or.inl rfl
  | consumeNowhere => exact hsame rfl hj
  | ackUnknown => exact hsame rfl hj
  | ackHere => exact hstart hj rfl
  | ackAway => exact hstart hj rfl
  | redeliver => exact hsame rfl hj
  | deliver hp =>
    rcases getElem?_set_cases hj with ⟨rfl, rfl⟩ | ⟨-, hold⟩
    · exact Or.inr ⟨_, hp, rfl, Or.inr ⟨_, rfl, rfl⟩⟩
    · exact hsame rfl hold
  | reply => exact hresumed (resumed ..) rfl hj
  | noReply => exact hresumed (resumed ..) rfl hj

/-- What holds of a `consume`: it waits for its own request, or its result was served. -/
def Consumed (s : QueueCluster P) (c : QueueCall P) : Prop :=
  ∀ queueName limit, c.op = .consume queueName limit →
    (∀ j rest, c.stage = .sending j rest →
      ∃ p, s.packets[j]? = some p ∧ p.request = .consume queueName limit) ∧
    ∀ messages, c.stage = .returned (.messages messages) → Served s queueName messages

structure Intact (s : QueueCluster P) : Prop where
  made : Everywhere (Made s) s
  filed : s.publishedIds.Nodup → ∀ n, Filed (s.nodes n)
  answers : ∀ p ∈ s.packets, ∀ queueName limit messages, p.request = .consume queueName limit →
    p.stage = .handled (some messages) → Served s queueName messages
  calls : ∀ c ∈ s.calls, Consumed s c

theorem packets_after (h : Stepped cfg s a s') {j : ℕ} {p : Packet P}
    (hj : s.packets[j]? = some p) : ∃ p', s'.packets[j]? = some p' ∧ p'.request = p.request := by
  by_cases hdeliver : ∃ now, a = .deliver j now
  · obtain ⟨now, rfl⟩ := hdeliver
    cases h with
    | deliver hp =>
      obtain rfl := Option.some.inj (hj.symm.trans hp)
      exact ⟨_, List.getElem?_set_self (List.getElem?_eq_some_iff.mp hj).1, rfl⟩
  · exact ⟨p, packet_step h hj fun now _ ha => hdeliver ⟨now, ha⟩, rfl⟩

theorem Consumed.step {c c' : QueueCall P} (hc : Consumed s c) (h : Stepped cfg s a s')
    (hop : c'.op = c.op) (hstage : c'.stage = c.stage) : Consumed s' c' := by
  intro queueName limit hconsume
  obtain ⟨hwaits, hserved⟩ := hc queueName limit (hop.symm.trans hconsume)
  refine ⟨fun j rest hsending => ?_, fun messages hreturned =>
    (hserved messages (hstage.symm.trans hreturned)).step h⟩
  obtain ⟨p, hj, hrequest⟩ := hwaits j rest (hstage.symm.trans hsending)
  obtain ⟨p', hj', hsame⟩ := packets_after h hj
  exact ⟨p', hj', hsame.trans hrequest⟩

theorem Intact.served (hi : Intact s) (hw : Wired cfg s) (now : ℚ) (n queueName : String)
    (limit : ℤ) : Served s queueName ((s.nodes n).handleConsume now queueName limit).2 :=
  served_handleConsume now (hw.keyed n) (hi.made.stores n) (fun hdistinct => hi.filed hdistinct n)
    queueName limit

/-- A `consume` that has just been woken returns what it got. -/
theorem consumed_woken {k : ℕ} {call c' : QueueCall P} {rest : List String}
    {response : Option (List (QueueMessage P))} (hcall : s.calls[k]? = some call)
    (hserved : ∀ queueName limit, call.op = .consume queueName limit → ∀ messages,
      response = some messages → Served s queueName messages)
    (h : Stepped cfg s a (s.resume cfg k call rest response))
    (hk : (s.resume cfg k call rest response).calls[k]? = some c') :
    Consumed (s.resume cfg k call rest response) c' := by
  intro queueName limit hconsume
  have hlt : k < s.calls.length := (List.getElem?_eq_some_iff.mp hcall).1
  have hresumed : Resumed cfg s k call rest response (s.resume cfg k call rest response) :=
    resumed s k call rest response
  obtain ⟨stage, hcalls, -⟩ := hresumed.calls
  have hop : call.op = .consume queueName limit := by
    rw [hcalls, List.getElem?_set_self hlt] at hk
    obtain rfl := Option.some.inj hk
    exact hconsume
  have hresume : s.resume cfg k call rest response =
      s.setStage k call (.returned (.messages (response.getD []))) := by
    unfold resume
    rw [hop]
  have hset : (s.resume cfg k call rest response).calls[k]? =
      some { call with stage := .returned (.messages (response.getD [])) } := by
    rw [hresume]
    exact List.getElem?_set_self hlt
  obtain rfl := Option.some.inj (hset.symm.trans hk)
  constructor
  · intro j rest hsending
    cases hsending
  · intro messages hreturned
    cases hreturned
    cases response with
    | none => exact served_nil _ _
    | some messages => exact (hserved queueName limit hop messages rfl).step h

/-- A call that has been there before goes on waiting, or is woken. -/
theorem Intact.consumed_old (hi : Intact s) (h : Stepped cfg s a s') {k : ℕ}
    {c c' : QueueCall P} (hc : s.calls[k]? = some c) (hk : s'.calls[k]? = some c') :
    Consumed s' c' := by
  have hcall := hi.calls c (List.mem_of_getElem? hc)
  by_cases hreply : a = .reply k
  · subst hreply
    cases h with
    | @reply _ j call p rest response hcall' hstage hj hresponse =>
      obtain rfl := Option.some.inj (hc.symm.trans hcall')
      refine consumed_woken hc (fun queueName limit hop messages heq => ?_) (.reply hc hstage hj
        hresponse) hk
      obtain ⟨p', hj', hrequest⟩ := (hcall queueName limit hop).1 j rest hstage
      obtain rfl := Option.some.inj (hj.symm.trans hj')
      exact hi.answers p (List.mem_of_getElem? hj) queueName limit messages hrequest
        (heq ▸ hresponse)
  by_cases hnoReply : a = .noReply k
  · subst hnoReply
    cases h with
    | @noReply _ j call rest hcall' hstage =>
      obtain rfl := Option.some.inj (hc.symm.trans hcall')
      exact consumed_woken hc (fun _ _ _ _ heq => by cases heq) (.noReply hc hstage) hk
  obtain ⟨c'', hk', -, hop, hstage⟩ := stage_step h hc hreply hnoReply
  obtain rfl := Option.some.inj (hk.symm.trans hk')
  exact hcall.step h hop hstage

theorem Intact.consumed_new (hi : Intact s) (hw : Wired cfg s) (h : Stepped cfg s a s')
    {c' : QueueCall P} (hk : s'.calls[s.calls.length]? = some c') (hbegins : Begins cfg s a s' c') :
    Consumed s' c' := by
  intro queueName limit hop
  unfold Begins at hbegins
  rw [hop] at hbegins
  obtain ⟨now, rfl⟩ := hbegins
  have hnew : ∀ {t : QueueCluster P} {d : QueueCall P}, t.calls = s.calls ++ [d] →
      t.calls[s.calls.length]? = some c' → c'.stage = d.stage := by
    intro t d hcalls hk
    rw [hcalls, List.getElem?_concat_length] at hk
    exact congrArg QueueCall.stage (Option.some.inj hk).symm
  have hstep := h
  cases h with
  | consumeHere =>
    rw [hnew rfl hk]
    constructor
    · intro j rest hsending
      cases hsending
    · intro messages hreturned
      cases hreturned
      exact (hi.served hw now c'.node queueName limit).step hstep
  | @consumeAway _ _ nodeId =>
    rw [hnew (d := ⟨c'.node, .consume queueName limit, none, .sending s.packets.length []⟩)
      (set_concat_length ..) hk]
    constructor
    · intro j rest hsending
      cases hsending
      exact ⟨_, List.getElem?_concat_length, rfl⟩
    · intro messages hreturned
      cases hreturned
  | consumeNowhere =>
    rw [hnew rfl hk]
    constructor
    · intro j rest hsending
      cases hsending
    · intro messages hreturned
      cases hreturned
      exact served_nil _ _

theorem Intact.step (hi : Intact s) (hw : Wired cfg s) (h : Stepped cfg s a s') : Intact s' := by
  refine ⟨everywhere_made hi.made h, fun hdistinct n => ?_, fun p' hp' => ?_, fun c' hc' => ?_⟩
  · exact filed_step hi.made hw h hdistinct (hi.filed (publishedIds_step h hdistinct) n)
  · intro queueName limit messages hrequest hhandled
    obtain ⟨j, hj⟩ := List.mem_iff_getElem?.mp hp'
    rcases packets_before h hj with hflight | ⟨p, hold, hsame, hstage | ⟨now, rfl, rfl⟩⟩
    · rw [hflight] at hhandled
      cases hhandled
    · exact (hi.answers p (List.mem_of_getElem? hold) queueName limit messages
        (hsame.symm.trans hrequest) (hstage.symm.trans hhandled)).step h
    · have hset : (s.handle cfg j p now).packets[j]? = some { p with stage := .handled (some
          ((s.nodes p.dst).handleConsume now queueName limit).2) } := by
        unfold handle
        rw [hsame.symm.trans hrequest]
        exact List.getElem?_set_self (List.getElem?_eq_some_iff.mp hold).1
      obtain rfl := Option.some.inj (hset.symm.trans hj)
      cases hhandled
      exact (hi.served hw now p.dst queueName limit).step h
  · obtain ⟨k, hk⟩ := List.mem_iff_getElem?.mp hc'
    rcases (callsStep h).new k c' hk with hlt | ⟨rfl, hbegins⟩
    · exact hi.consumed_old h (List.getElem?_eq_getElem hlt) hk
    · exact hi.consumed_new hw h hk hbegins

theorem intact_boot (clock : String → String → ℚ) : Intact (P := P) (boot cfg clock) where
  made := everywhere_boot clock
  filed _ _ _ := ⟨List.nodup_nil, List.forall_mem_nil _⟩
  answers _ h := absurd h List.not_mem_nil
  calls _ h := absurd h List.not_mem_nil

theorem intact_run {acts : List (QueueAction P)} (hi : Intact s) (hw : Wired cfg s)
    (hrun : s.run cfg acts = some s') : Intact s' :=
  (Transition.run_preserves (I := fun s => Intact s ∧ Wired cfg s)
    (fun _ _ _ hs _ hstep => ⟨hs.1.step hs.2 (stepped hstep), hs.2.step (stepped hstep)⟩)
    ⟨hi, hw⟩ (Transition.eachStep_of_forall s fun _ _ _ => trivial) hrun).1

/-- In every run, whatever is lost or late and whatever the nodes think of each other: the
    messages that a `consume` has returned were published and are not acked. They are of the
    queue it asked for, and none comes twice, if no id has been published twice. -/
theorem consumed_published (cfg : QueueConfig) (clock : String → String → ℚ)
    {acts : List (QueueAction P)} {s : QueueCluster P}
    (hrun : (boot cfg clock).run cfg acts = some s) {k : ℕ} {c : QueueCall P} {queueName : String}
    {limit : ℤ} {messages : List (QueueMessage P)} (hk : s.calls[k]? = some c)
    (hop : c.op = .consume queueName limit) (hstage : c.stage = .returned (.messages messages)) :
    (∀ msg ∈ messages, Made s msg ∧ msg.acked = false) ∧
      (s.publishedIds.Nodup → (∀ msg ∈ messages, msg.queueName = queueName) ∧
        (messages.map QueueMessage.id).Nodup) := by
  have hi := intact_run (intact_boot clock) (wired_boot clock) hrun
  have hserved := ((hi.calls c (List.mem_of_getElem? hk)) queueName limit hop).2 messages hstage
  exact ⟨hserved.published, hserved.own⟩

/-- `b` consumes what `a` has published, and what it has published itself, from the store of
    `a`. -/
theorem consumed_published_pair : ∃ s : QueueCluster String,
    run replicatedPair (boot replicatedPair fun _ _ => 0)
      [.publish "a" "orders" "book" "m" 0, .publish "b" "orders" "pen" "n" 1, .deliver 0 2,
        .reply 0, .deliver 1 2, .consume "b" "orders" 2 3, .deliver 2 4, .reply 2] = some s ∧
    ∃ messages : List (QueueMessage String), messages.length = 2 ∧
      (∀ msg ∈ messages, Made s msg ∧ msg.acked = false) ∧
      (s.publishedIds.Nodup → (∀ msg ∈ messages, msg.queueName = "orders") ∧
        (messages.map QueueMessage.id).Nodup) := by
  have hrun : (run replicatedPair (boot replicatedPair fun _ _ => 0)
      ([.publish "a" "orders" "book" "m" 0, .publish "b" "orders" "pen" "n" 1, .deliver 0 2,
        .reply 0, .deliver 1 2, .consume "b" "orders" 2 3, .deliver 2 4, .reply 2] :
        List (QueueAction String))).any (fun s =>
      s.calls[2]? = some ⟨"b", .consume "orders" 2, none, .returned (.messages
        [⟨"m", "orders", "book", 0, 1, 4, false⟩, ⟨"n", "orders", "pen", 1, 1, 4, false⟩])⟩) =
      true := by
    decide +kernel
  obtain ⟨s, hs, hcall⟩ := (Option.any_eq_true _ _).mp hrun
  exact ⟨s, hs, _, rfl, consumed_published replicatedPair _ hs (of_decide_eq_true hcall) rfl rfl⟩

end QueueCluster

end Pynchronize
