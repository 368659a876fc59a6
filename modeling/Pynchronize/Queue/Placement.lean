import Pynchronize.Queue.Traffic

/-!
# Where the copies lie

As long as the membership does not change, all nodes have the ring they booted
with. Every call then names the same targets for a message, and every copy lies
on one of them.
-/

namespace Pynchronize

open Lib

theorem ConsistentHash.collectNodes_min (h : ConsistentHash) (count fuel idx : ℕ)
    (result : List String) :
    h.collectNodes (min count h.nodes.card) fuel idx result =
      h.collectNodes count fuel idx result := by
  induction fuel generalizing idx result with
  | zero => simp [collectNodes]
  | succ fuel ih => simp [collectNodes, ih]

/-- The loop stops at the number of nodes in any case. -/
theorem ConsistentHash.getNodesForKey_min (hash : String → ℕ) (h : ConsistentHash) (key : String)
    (count : ℕ) : h.getNodesForKey hash key (min count h.nodes.card) =
      h.getNodesForKey hash key count := by
  simp [getNodesForKey, collectNodes_min]

/-! ## Every key has a node -/

namespace ConsistentHash

variable {hash : String → ℕ} {h : ConsistentHash} {nodes : List String}

/-- The points of the ring lead to the given nodes. -/
def LeadsTo (nodes : List String) (h : ConsistentHash) : Prop :=
  ∀ x ∈ h.ring, ∃ n ∈ nodes, h.nodeMap.get? x = some n

theorem LeadsTo.addNode (hl : LeadsTo nodes h) {node : String} (hn : node ∈ nodes) :
    LeadsTo nodes (h.addNode hash node) := by
  have hloop : ∀ (l : List ℕ) (g : ConsistentHash), LeadsTo nodes g →
      LeadsTo nodes (l.foldl (addVirtual hash node) g) := by
    intro l
    induction l with
    | nil => exact fun g hg => hg
    | cons i l ih =>
      intro g hg
      refine ih _ fun x hx => ?_
      simp only [addVirtual, List.mem_orderedInsert, Dict.get?_set] at hx ⊢
      split
      · exact ⟨node, hn, rfl⟩
      · rename_i hne
        exact hg x (hx.resolve_left (Ne.symm hne))
  unfold ConsistentHash.addNode
  split
  · exact hl
  · exact hloop _ _ hl

theorem length_foldl_addVirtual (node : String) (l : List ℕ) :
    (l.foldl (addVirtual hash node) h).ring.length = h.ring.length + l.length := by
  induction l generalizing h with
  | nil => simp
  | cons i l ih =>
    simp only [List.foldl_cons, ih, addVirtual, List.orderedInsert_length, List.length_cons]
    omega

theorem length_le_addNode (node : String) :
    h.ring.length ≤ (h.addNode hash node).ring.length := by
  unfold addNode
  split
  · rfl
  · simp [length_foldl_addVirtual]

theorem length_le_foldl_addNode (l : List String) :
    h.ring.length ≤ (l.foldl (addNode hash) h).ring.length := by
  induction l generalizing h with
  | nil => simp
  | cons node l ih => exact (length_le_addNode node).trans ih

theorem LeadsTo.getNode (hl : LeadsTo nodes h) (hne : h.ring ≠ []) (key : String) :
    ∃ n ∈ nodes, h.getNode hash key = some (some n) := by
  have hpos : 0 < h.ring.length := List.length_pos_of_ne_nil hne
  have hle : bisectLeft h.ring (hash key) ≤ h.ring.length := (List.takeWhile_sublist _).length_le
  have hidx : (if bisectLeft h.ring (hash key) = h.ring.length then 0
      else bisectLeft h.ring (hash key)) < h.ring.length := by
    split <;> omega
  obtain ⟨n, hn, hmap⟩ := hl _ (List.getElem_mem hidx)
  refine ⟨n, hn, ?_⟩
  simp [ConsistentHash.getNode, hne, List.getElem?_eq_getElem hidx, hmap]

end ConsistentHash

namespace QueueConfig

def ring (cfg : QueueConfig) : ConsistentHash :=
  cfg.nodes.foldl (ConsistentHash.addNode cfg.hash) {}

def targets (cfg : QueueConfig) (messageId : String) : Option (List String) :=
  cfg.ring.getNodesForKey cfg.hash messageId cfg.replicationFactor

/-- The node is one of the targets of the message. -/
def IsTarget (cfg : QueueConfig) (messageId n : String) : Prop :=
  ∃ targets ∈ cfg.targets messageId, n ∈ targets

theorem leadsTo_ring (cfg : QueueConfig) : cfg.ring.LeadsTo cfg.nodes := by
  have hloop : ∀ (l : List String) (h : ConsistentHash), l ⊆ cfg.nodes → h.LeadsTo cfg.nodes →
      (l.foldl (ConsistentHash.addNode cfg.hash) h).LeadsTo cfg.nodes := by
    intro l
    induction l with
    | nil => exact fun h _ hl => hl
    | cons node l ih =>
      intro h hsub hl
      rw [List.cons_subset] at hsub
      exact ih _ hsub.2 (hl.addNode hsub.1)
  exact hloop _ _ (List.Subset.refl _) fun x hx => by simp at hx

theorem ring_ne_nil {cfg : QueueConfig} (h : cfg.nodes ≠ []) : cfg.ring.ring ≠ [] := by
  obtain ⟨node, rest, hnodes⟩ := List.exists_cons_of_ne_nil h
  have hfirst : (ConsistentHash.addNode cfg.hash {} node).ring.length = 100 := by
    simp [ConsistentHash.addNode, ConsistentHash.length_foldl_addVirtual]
  have hrest : 100 ≤ cfg.ring.ring.length := by
    rw [← hfirst]
    simp only [ring, hnodes, List.foldl_cons]
    exact ConsistentHash.length_le_foldl_addNode rest
  intro hnil
  simp [hnil] at hrest

/-- The node that `consume` turns to. -/
theorem exists_responsible {cfg : QueueConfig} (h : cfg.nodes ≠ []) (queueName : String) :
    ∃ r ∈ cfg.nodes, cfg.ring.getNode cfg.hash queueName = some (some r) :=
  cfg.leadsTo_ring.getNode (ring_ne_nil h) queueName

end QueueConfig

namespace QueueNode

variable {P : Type*}

@[simp] theorem membership_handlePublish (cfg : QueueConfig) (n : QueueNode P)
    (message : QueueMessage P) : (n.handlePublish cfg message).membership = n.membership := by
  unfold handlePublish
  split <;> rfl

@[simp] theorem membership_markDelivered (now : ℚ) (n : QueueNode P) (messageId : String) :
    (n.markDelivered now messageId).membership = n.membership := by
  unfold markDelivered
  split <;> rfl

@[simp] theorem membership_handleConsume (now : ℚ) (n : QueueNode P) (queueName : String)
    (limit : ℤ) : (n.handleConsume now queueName limit).1.membership = n.membership := by
  have hloop : ∀ (ids : List String) (n : QueueNode P),
      (ids.foldl (markDelivered now) n).membership = n.membership := by
    intro ids
    induction ids with
    | nil => simp
    | cons id ids ih => simp [ih]
  exact hloop _ n

@[simp] theorem membership_redeliver (cfg : QueueConfig) (now : ℚ) (n : QueueNode P)
    (messageId : String) : (n.redeliver cfg now messageId).membership = n.membership := by
  unfold redeliver
  split
  · split <;> rfl
  · rfl

end QueueNode

namespace QueueCluster

variable {P : Type*} {cfg : QueueConfig} {s s' : QueueCluster P} {a : QueueAction P}

/-- The membership does not change: no event changes a ring. -/
def FixedRing (cfg : QueueConfig) (s : QueueCluster P) : QueueAction P → Prop
  | .membership i event => ∀ m ∈ (s.nodes i).membership.step cfg.hash event,
    m.consistentHash = (s.nodes i).consistentHash
  | _ => True

theorem consistentHash_setNode {t : QueueCluster P} {i : String} {node : QueueNode P}
    (hnodes : t.nodes = (s.setNode i node).nodes)
    (h : node.consistentHash = (s.nodes i).consistentHash) (n : String) :
    (t.nodes n).consistentHash = (s.nodes n).consistentHash := by
  by_cases heq : n = i
  · subst heq
    rw [hnodes, nodes_setNode_self, h]
  · rw [hnodes, nodes_setNode_of_ne _ _ heq]

theorem consistentHash_handle (j : ℕ) (p : Packet P) (now : ℚ) (n : String) :
    ((s.handle cfg j p now).nodes n).consistentHash = (s.nodes n).consistentHash := by
  obtain ⟨call, dst, request, stage⟩ := p
  cases request with
  | publish message =>
    refine consistentHash_setNode (by rfl) ?_ n
    simp [QueueNode.consistentHash]
  | consume queueName limit =>
    exact consistentHash_setNode (by rfl) (congrArg Membership.consistentHash
      (QueueNode.membership_handleConsume now (s.nodes dst) queueName limit)) n
  | ack messageId => exact consistentHash_setNode (by rfl) (by rfl) n

/-- Nothing but a membership event changes a ring. -/
theorem consistentHash_step (h : Stepped cfg s a s') (hfixed : FixedRing cfg s a) (n : String) :
    (s'.nodes n).consistentHash = (s.nodes n).consistentHash := by
  cases h with
  | membership hi hm => exact consistentHash_setNode (by rfl) (hfixed _ hm) n
  | publishHere => exact consistentHash_setNode (by rw [nodes_startCall]; rfl) (by rfl) n
  | publishAway => rw [nodes_startCall]
  | consumeHere =>
    refine consistentHash_setNode (by rfl) ?_ n
    simp [QueueNode.consistentHash]
  | consumeAway => rfl
  | consumeNowhere => rfl
  | ackUnknown => rfl
  | ackHere => exact consistentHash_setNode (by rw [nodes_startCall]) (by rfl) n
  | ackAway => rw [nodes_startCall]
  | redeliver =>
    refine consistentHash_setNode (by rfl) ?_ n
    simp [QueueNode.consistentHash]
  | deliver => exact consistentHash_handle ..
  | reply => rw [(resumed ..).nodes]
  | noReply => rw [(resumed ..).nodes]

/-! ## Every copy lies on a target -/

/-- All rings are the one of the start, a `publish` turns to targets only, and copies lie on
    targets. -/
structure Placed (cfg : QueueConfig) (s : QueueCluster P) : Prop where
  ring : ∀ i, (s.nodes i).consistentHash = cfg.ring
  owed : ∀ (k : ℕ) c message n, s.calls[k]? = some c → c.op = .publish message →
    Owes cfg s k n → cfg.IsTarget message.id n
  stored : ∀ n id msg, (s.nodes n).store.get id = some msg → cfg.IsTarget id n

theorem Owes.lt {k : ℕ} {n : String} (howes : Owes cfg s k n) (hw : Wired cfg s) :
    k < s.calls.length := by
  rcases howes with ⟨c, hc, -⟩ | ⟨p, hp, rfl, -⟩
  · exact (List.getElem?_eq_some_iff.mp hc).1
  · obtain ⟨-, c, hc, -⟩ := hw.packets p hp
    exact (List.getElem?_eq_some_iff.mp hc).1

theorem Placed.targetNodes (hp : Placed cfg s) (i messageId : String) :
    (s.nodes i).targetNodes cfg messageId = cfg.targets messageId := by
  unfold QueueNode.targetNodes QueueConfig.targets
  rw [hp.ring i, ConsistentHash.getNodesForKey_min]

/-- A request that adds a message was sent to a target. -/
theorem Placed.adds (hp : Placed cfg s) (hw : Wired cfg s) {n : String} {message : QueueMessage P}
    (hadds : Adds cfg s a n message) : cfg.IsTarget message.id n := by
  cases a with
  | publish i queueName payload messageId now =>
    obtain ⟨rfl, rfl, -, targets, ht, hin⟩ := hadds
    exact ⟨targets, (hp.targetNodes i messageId).symm.trans ht, hin⟩
  | deliver j now =>
    obtain ⟨p, hj, hflight, rfl, hrequest, -⟩ := hadds
    have hmem := List.mem_of_getElem? hj
    obtain ⟨-, c, hc, hmatch, -⟩ := hw.packets p hmem
    unfold Matches at hmatch
    rw [hrequest] at hmatch
    split at hmatch
    · rename_i published hop
      obtain ⟨message', heq, hid⟩ := hmatch
      cases heq
      rw [hid]
      exact hp.owed p.call c published p.dst hc hop (Or.inr ⟨p, hmem, rfl, rfl, hflight⟩)
    · cases hmatch
    · cases hmatch
  | _ => exact False.elim hadds

theorem Placed.step (hp : Placed cfg s) (hw : Wired cfg s) (hfixed : FixedRing cfg s a)
    (h : Stepped cfg s a s') : Placed cfg s' := by
  refine ⟨fun i => (consistentHash_step h hfixed i).trans (hp.ring i), ?_, ?_⟩
  · intro k c' message n hc' hop howes
    rcases owes_before h howes with hold | ⟨-, hnew⟩
    · obtain ⟨c, hc⟩ : ∃ c, s.calls[k]? = some c := ⟨_, List.getElem?_eq_getElem (hold.lt hw)⟩
      obtain ⟨c'', hc'', hcont⟩ := (callsStep h).old k c hc
      obtain rfl := Option.some.inj (hc'.symm.trans hc'')
      exact hp.owed k c message n hc (hcont.op.symm.trans hop) hold
    · obtain ⟨targets, ht, hn⟩ := hnew c' hc' message hop
      exact ⟨targets, (hp.targetNodes c'.node message.id).symm.trans ht, hn⟩
  · intro n id msg hget
    cases copyFrom h hget with
    | old hold => exact hp.stored n id _ hold
    | acked hold => exact hp.stored n id _ hold
    | added hadds hid => exact hid ▸ hp.adds hw hadds

theorem placed_boot (clock : String → String → ℚ) : Placed (P := P) cfg (boot cfg clock) where
  ring _ := rfl
  owed _ _ _ _ hc := by simp [boot] at hc
  stored _ _ _ hget := by cases hget

/-! ## Every target gets its copy -/

/-- A stored message is in the list of its queue. -/
def Listed (s : QueueCluster P) : Prop :=
  ∀ n id msg, (s.nodes n).store.get id = some msg → id ∈ (s.nodes n).store.queue msg.queueName

theorem Listed.step (hl : Listed s) (h : Stepped cfg s a s') : Listed s' := by
  intro n id msg hget
  cases storeStep h n with
  | retains hr =>
    obtain ⟨old, hold, hcontent⟩ := hr.get' hget
    obtain ⟨-, hqueue, -⟩ := QueueMessage.content_eq_iff.mp hcontent
    rw [hr.queue]
    exact hqueue ▸ hl n id old hold
  | adds hadds hstore =>
    rw [hstore, MessageStore.get_add] at hget
    rw [hstore, MessageStore.queue_add]
    split at hget
    · rename_i hid
      cases hget
      simp [hid]
    · have := hl n id msg hget
      split <;> simp [this]
  | acks hacks hstore =>
    rw [hstore, MessageStore.get_ack] at hget
    rw [hstore]
    simp only [MessageStore.ack, MessageStore.queue_edit]
    split at hget
    · obtain ⟨old, hold, rfl⟩ := Option.map_eq_some_iff.mp hget
      exact hl n id old hold
    · exact hl n id msg hget

/-- Messages are never removed. -/
theorem isSome_step (h : Stepped cfg s a s') {n id : String}
    (hstored : ((s.nodes n).store.get id).isSome = true) :
    ((s'.nodes n).store.get id).isSome = true := by
  obtain ⟨msg, hget⟩ := Option.isSome_iff_exists.mp hstored
  cases storeStep h n with
  | retains hr =>
    obtain ⟨msg', hget', -⟩ := hr.get hget
    simp [hget']
  | adds hadds hstore =>
    rw [hstore, MessageStore.get_add]
    split <;> simp [hget]
  | acks hacks hstore =>
    rw [hstore, MessageStore.get_ack]
    split <;> simp [hget]

/-- A handled QUEUE_PUBLISH leaves the message stored. -/
theorem isSome_handle {j : ℕ} {p : Packet P} {now : ℚ} {message : QueueMessage P}
    (hrequest : p.request = .publish message) :
    (((s.handle cfg j p now).nodes p.dst).store.get message.id).isSome = true := by
  have hnode : (s.handle cfg j p now).nodes p.dst = (s.nodes p.dst).handlePublish cfg message := by
    unfold handle
    rw [hrequest]
    exact nodes_setNode_self ..
  rw [hnode]
  unfold QueueNode.handlePublish
  cases hget : (s.nodes p.dst).store.get message.id with
  | some msg => simp [hget]
  | none => simp [MessageStore.get_add]

/-- A `publish` at a target stores the message. -/
theorem isSome_publish {i queueName messageId : String} {payload : P} {now : ℚ}
    (hp : Placed cfg s) (h : Stepped cfg s (.publish i queueName payload messageId now) s')
    (hin : cfg.IsTarget messageId i) : ((s'.nodes i).store.get messageId).isSome = true := by
  cases h with
  | publishHere hi ht hmem =>
    simp [nodes_startCall, store, nodes_setNode_self, MessageStore.get_add]
  | publishAway hi ht hout =>
    obtain ⟨targets', ht', hin⟩ := hin
    cases ht.symm.trans ((hp.targetNodes i messageId).trans ht')
    exact absurd hin hout

/-- Every target of a published message has it, or is owed it. -/
def Reaches (cfg : QueueConfig) (s : QueueCluster P) : Prop :=
  ∀ (k : ℕ) c message, s.calls[k]? = some c → c.op = .publish message →
    ∀ n ∈ cfg.nodes, cfg.IsTarget message.id n →
      ((s.nodes n).store.get message.id).isSome = true ∨ Owes cfg s k n

theorem Reaches.step (hr : Reaches cfg s) (hp : Placed cfg s) (hw : Wired cfg s)
    (h : Stepped cfg s a s') : Reaches cfg s' := by
  intro k c' message hc' hop n hn ht
  rcases (callsStep h).new k c' hc' with hlt | ⟨rfl, hbegins⟩
  · obtain ⟨c, hc⟩ : ∃ c, s.calls[k]? = some c := ⟨_, List.getElem?_eq_getElem hlt⟩
    obtain ⟨c'', hc'', hcont⟩ := (callsStep h).old k c hc
    obtain rfl := Option.some.inj (hc'.symm.trans hc'')
    have hop : c.op = .publish message := hcont.op.symm.trans hop
    rcases hr k c message hc hop n hn ht with hstored | howes
    · exact Or.inl (isSome_step h hstored)
    · have hconsume : ∀ d, s.calls[k]? = some d →
          ∀ queueName limit, d.op ≠ .consume queueName limit := by
        intro d hd queueName limit hd'
        cases hc.symm.trans hd
        cases hop.symm.trans hd'
      rcases owes_step h hconsume howes with hkept | ⟨j, now, p, rfl, hj, hflight, hcall, hdst⟩
      · exact Or.inr hkept
      · obtain ⟨-, d, hd, hmatch, -⟩ := hw.packets p (List.mem_of_getElem? hj)
        obtain rfl := Option.some.inj (hc.symm.trans (hcall ▸ hd))
        unfold Matches at hmatch
        rw [hop] at hmatch
        obtain ⟨message', hrequest, hid⟩ := hmatch
        cases h with
        | deliver hj' hflight' =>
          obtain rfl := Option.some.inj (hj.symm.trans hj')
          subst hdst
          exact Or.inl (hid ▸ isSome_handle hrequest)
  · unfold Begins at hbegins
    rw [hop] at hbegins
    obtain ⟨targets, rfl, -, htargets, howes⟩ := hbegins
    by_cases heq : n = c'.node
    · subst heq
      exact Or.inl (isSome_publish hp h ht)
    · obtain ⟨targets', ht', hmem⟩ := ht
      cases htargets.symm.trans ((hp.targetNodes c'.node message.id).trans ht')
      exact Or.inr (howes n hmem ⟨hn, heq⟩)

end QueueCluster

end Pynchronize
