import Pynchronize.Queue.Restart

/-!
# Each message once

`messages` and the lists of `queues` are filled together, by `publish` and by
`_handle_publish`. The second stores no id a second time; the first does, and
`unique_iff` says that this is all that can bring them apart.
-/

namespace Pynchronize

open Lib

variable {P : Type*}

namespace MessageStore

variable {hash : String → ℕ} {s s' : MessageStore P}

def Acked (s : MessageStore P) (id : String) : Prop :=
  ∃ msg, s.get id = some msg ∧ msg.acked = true

/-- Each id is listed at most once, and for the queue of its message. -/
structure Tidy (s : MessageStore P) : Prop where
  keyed : s.Keyed
  queued : ∀ id msg, s.get id = some msg → msg.acked = false → id ∈ s.queue msg.queueName
  listed : ∀ queueName, ∀ id ∈ s.queue queueName,
    ∃ msg, s.get id = some msg ∧ msg.queueName = queueName
  nodup : ∀ queueName, (s.queue queueName).Nodup

/-- What is asked of a store after an operation on `s`. -/
structure Unique (s s' : MessageStore P) : Prop where
  once : ∀ queueName, (s'.queue queueName).Nodup
  own : ∀ queueName, ∀ id ∈ s'.queue queueName,
    ∃ msg, s'.get id = some msg ∧ msg.queueName = queueName
  acked : ∀ id, s.Acked id → s'.Acked id ∧ s'.pendingId id = false
  handedOut : ∀ queueName limit, ((s'.getPending queueName limit).map QueueMessage.id).Nodup ∧
    ∀ msg ∈ s'.getPending queueName limit, msg.queueName = queueName
  counted : ∀ queueName, s'.getQueueSize queueName =
    (s'.messages.items.filter fun item => item.2.queueName = queueName && !item.2.acked).length

theorem Tidy.empty : ({} : MessageStore P).Tidy where
  keyed _ _ hget := by cases hget
  queued _ _ hget := by cases hget
  listed _ _ hid := by cases hid
  nodup _ := List.nodup_nil

/-! ## What a tidy store hands out -/

theorem Acked.not_pending {id : String} (h : s.Acked id) : s.pendingId id = false := by
  obtain ⟨msg, hget, hacked⟩ := h
  have hget : s.messages.get? id = some msg := hget
  simp [pendingId, hget, hacked]

/-- `get_pending` returns the first of the pending messages. -/
theorem collectPending_prefix (s : MessageStore P) (limit : ℤ) (ids : List String)
    (result : List (QueueMessage P)) :
    s.collectPending limit ids result <+: result ++
      ids.filterMap fun msgId => (s.messages.get? msgId).filter fun msg => !msg.acked := by
  induction ids generalizing result with
  | nil => simp [collectPending]
  | cons msgId rest ih =>
    unfold collectPending
    cases hget : s.messages.get? msgId with
    | none => simpa [hget] using ih result
    | some msg =>
      cases hacked : msg.acked with
      | true => simpa [hget, hacked] using ih result
      | false =>
        have hrest := ih (result ++ [msg])
        rw [List.append_assoc, List.singleton_append] at hrest
        simp only [hget, hacked, Bool.false_eq_true, ↓reduceIte, List.filterMap_cons,
          Option.filter_some, Bool.not_false]
        split
        · exact (List.prefix_append_right_inj result).mpr (List.prefix_append [msg] _)
        · exact hrest

theorem map_id_pending (h : s.Keyed) (queueName : String) :
    (s.pending queueName).map QueueMessage.id = (s.queue queueName).filter s.pendingId := by
  unfold pending
  induction s.queue queueName with
  | nil => rfl
  | cons msgId rest ih =>
    rw [List.filterMap_cons, List.filter_cons, pendingId]
    cases hget : s.messages.get? msgId with
    | none => simpa using ih
    | some msg =>
      have hid := h msgId msg hget
      cases hacked : msg.acked with
      | true => simpa [Option.filter, hacked] using ih
      | false => simpa [Option.filter, hacked, hid] using ih

theorem Tidy.handedOut (h : s.Tidy) (queueName : String) (limit : ℤ) :
    ((s.getPending queueName limit).map QueueMessage.id).Nodup ∧
      ∀ msg ∈ s.getPending queueName limit, msg.queueName = queueName := by
  have hfirst : s.getPending queueName limit <+: s.pending queueName := by
    have := s.collectPending_prefix limit (s.queue queueName) []
    rwa [List.nil_append] at this
  constructor
  · have hnodup : ((s.pending queueName).map QueueMessage.id).Nodup := by
      rw [map_id_pending h.keyed]
      exact (h.nodup queueName).filter _
    exact hnodup.sublist (hfirst.sublist.map _)
  · intro msg hmsg
    obtain ⟨id, hid, hget, -⟩ := mem_getPending hmsg
    obtain ⟨found, hfound, hqueue⟩ := h.listed queueName id hid
    obtain rfl := Option.some.inj (hget.symm.trans hfound)
    exact hqueue

theorem Tidy.counted (h : s.Tidy) (queueName : String) : s.getQueueSize queueName =
    (s.messages.items.filter fun item => item.2.queueName = queueName && !item.2.acked).length := by
  have hkeys : ((s.messages.items.filter fun item =>
      item.2.queueName = queueName && !item.2.acked).map Prod.fst).Nodup :=
    s.messages.nodup.sublist (List.filter_sublist.map _)
  have hmem : ∀ id, id ∈ (s.queue queueName).filter s.pendingId ↔
      id ∈ (s.messages.items.filter fun item =>
        item.2.queueName = queueName && !item.2.acked).map Prod.fst := by
    intro id
    simp only [List.mem_filter, List.mem_map, Bool.and_eq_true, decide_eq_true_eq,
      Bool.not_eq_true', Prod.exists, exists_and_right, exists_eq_right]
    constructor
    · rintro ⟨hid, hpending⟩
      obtain ⟨msg, hget, hqueue⟩ := h.listed queueName id hid
      have hget : s.messages.get? id = some msg := hget
      refine ⟨msg, (Dict.mem_items_iff _ id msg).mpr hget, hqueue, ?_⟩
      simpa [pendingId, hget] using hpending
    · rintro ⟨msg, hitem, rfl, hacked⟩
      have hget := (Dict.mem_items_iff _ id msg).mp hitem
      exact ⟨h.queued id msg hget hacked, by simp [pendingId, hget, hacked]⟩
  have hperm := (List.perm_ext_iff_of_nodup ((h.nodup queueName).filter s.pendingId) hkeys).mpr hmem
  unfold getQueueSize
  rw [hperm.length_eq, List.length_map]

theorem Tidy.unique (h : s'.Tidy) (hacked : ∀ id, s.Acked id → s'.Acked id) : Unique s s' where
  once := h.nodup
  own := h.listed
  acked id ha := ⟨hacked id ha, (hacked id ha).not_pending⟩
  handedOut := h.handedOut
  counted := h.counted

/-! ## Operations -/

/-- The same messages in the same queues; some may be acked now. -/
structure Keeps (s s' : MessageStore P) : Prop where
  queue : ∀ queueName, s'.queue queueName = s.queue queueName
  stored : ∀ id msg, s.get id = some msg → ∃ msg', s'.get id = some msg' ∧ msg'.id = msg.id ∧
    msg'.queueName = msg.queueName ∧ (msg.acked = true → msg'.acked = true)
  known : ∀ id msg', s'.get id = some msg' → ∃ msg, s.get id = some msg

theorem Keeps.of_retains (h : Retains s s') : Keeps s s' where
  queue := h.queue
  stored id msg hget := by
    obtain ⟨msg', hget', hcontent⟩ := h.get hget
    obtain ⟨hid, hqueue, -, -, hacked⟩ := QueueMessage.content_eq_iff.mp hcontent
    exact ⟨msg', hget', hid, hqueue, fun ha => hacked.trans ha⟩
  known id msg' hget := by
    obtain ⟨msg, hget, -⟩ := h.get' hget
    exact ⟨msg, hget⟩

theorem keeps_ack (hash : String → ℕ) (s : MessageStore P) (messageId : String) :
    Keeps s (s.ack hash messageId).1 where
  queue _ := queue_edit ..
  stored id msg hget := by
    rw [get_ack, hget]
    split
    · exact ⟨_, rfl, rfl, rfl, fun _ => rfl⟩
    · exact ⟨msg, rfl, rfl, rfl, fun ha => ha⟩
  known id msg' hget := by
    rw [get_ack] at hget
    split at hget
    · obtain ⟨msg, hmsg, -⟩ := Option.map_eq_some_iff.mp hget
      exact ⟨msg, hmsg⟩
    · exact ⟨msg', hget⟩

theorem Keeps.acked (h : Keeps s s') {id : String} (ha : s.Acked id) : s'.Acked id := by
  obtain ⟨msg, hget, hacked⟩ := ha
  obtain ⟨msg', hget', -, -, hkept⟩ := h.stored id msg hget
  exact ⟨msg', hget', hkept hacked⟩

theorem Keeps.keyed (h : Keeps s s') (hs : s.Keyed) : s'.Keyed := by
  intro id msg' hget'
  obtain ⟨msg, hget⟩ := h.known id msg' hget'
  obtain ⟨found, hfound, hid, -⟩ := h.stored id msg hget
  obtain rfl := Option.some.inj (hget'.symm.trans hfound)
  exact hid.trans (hs id msg hget)

theorem keyed_add (hash : String → ℕ) (hs : s.Keyed) (msg : QueueMessage P) :
    (s.add hash msg).Keyed := by
  intro id found hget
  rw [get_add] at hget
  split at hget
  · rename_i heq
    obtain rfl := Option.some.inj hget
    exact heq
  · exact hs id found hget

theorem Tidy.keeps (ht : s.Tidy) (h : Keeps s s') : s'.Tidy := by
  refine ⟨h.keyed ht.keyed, fun id msg' hget' hacked' => ?_, fun queueName id hid => ?_,
    fun queueName => ?_⟩
  · obtain ⟨msg, hget⟩ := h.known id msg' hget'
    obtain ⟨found, hfound, -, hqueue, hkept⟩ := h.stored id msg hget
    obtain rfl := Option.some.inj (hget'.symm.trans hfound)
    rw [h.queue, hqueue]
    refine ht.queued id msg hget (eq_false_of_ne_true fun hacked => ?_)
    rw [hkept hacked] at hacked'
    cases hacked'
  · rw [h.queue] at hid
    obtain ⟨msg, hget, hqueue⟩ := ht.listed queueName id hid
    obtain ⟨msg', hget', -, hqueue', -⟩ := h.stored id msg hget
    exact ⟨msg', hget', hqueue'.trans hqueue⟩
  · rw [h.queue]
    exact ht.nodup queueName

theorem acked_add (hash : String → ℕ) {msg : QueueMessage P} (hfresh : s.get msg.id = none)
    {id : String} (ha : s.Acked id) : (s.add hash msg).Acked id := by
  obtain ⟨old, hget, hacked⟩ := ha
  refine ⟨old, ?_, hacked⟩
  rw [get_add, if_neg, hget]
  rintro rfl
  rw [hfresh] at hget
  cases hget

theorem Tidy.add (h : s.Tidy) (hash : String → ℕ) {msg : QueueMessage P}
    (hfresh : s.get msg.id = none) : (s.add hash msg).Tidy := by
  have hnew : ∀ queueName, msg.id ∉ s.queue queueName := by
    intro queueName hid
    obtain ⟨old, hold, -⟩ := h.listed queueName msg.id hid
    rw [hfresh] at hold
    cases hold
  refine ⟨keyed_add hash h.keyed msg, fun id found hget hacked => ?_, fun queueName id hid => ?_,
    fun queueName => ?_⟩
  · rw [get_add] at hget
    rw [queue_add]
    split at hget
    · rename_i heq
      obtain rfl := Option.some.inj hget
      rw [if_pos rfl, ← heq]
      exact List.mem_append_right _ (List.mem_singleton.mpr rfl)
    · have hold := h.queued id found hget hacked
      split
      · exact List.mem_append_left _ hold
      · exact hold
  · rw [queue_add] at hid
    rw [get_add]
    have hold : id ∈ s.queue queueName →
        ∃ found, (if msg.id = id then some msg else s.get id) = some found ∧
          found.queueName = queueName := by
      intro hid
      rw [if_neg fun heq : msg.id = id => hnew queueName (heq ▸ hid)]
      exact h.listed queueName id hid
    split at hid
    · rename_i hqueue
      rcases List.mem_append.mp hid with hid | hid
      · exact hold hid
      · obtain rfl := List.mem_singleton.mp hid
        exact ⟨msg, if_pos rfl, hqueue⟩
    · exact hold hid
  · rw [queue_add]
    split
    · refine List.nodup_append.mpr ⟨h.nodup queueName, List.nodup_singleton _, ?_⟩
      intro id hid last hlast heq
      obtain rfl := List.mem_singleton.mp hlast
      exact hnew queueName (heq ▸ hid)
    · exact h.nodup queueName

/-- A stored id that is added again is listed twice, listed for another queue, or pending again. -/
theorem Tidy.not_unique_add (h : s.Tidy) (hash : String → ℕ) {msg old : QueueMessage P}
    (hold : s.get msg.id = some old) (hacked : msg.acked = false) :
    ¬ Unique s (s.add hash msg) := by
  intro hu
  have hget : (s.add hash msg).get msg.id = some msg := by
    rw [get_add, if_pos rfl]
  cases hdone : old.acked with
  | true =>
    obtain ⟨⟨found, hfound, ha⟩, -⟩ := hu.acked msg.id ⟨old, hold, hdone⟩
    obtain rfl := Option.some.inj (hget.symm.trans hfound)
    rw [hacked] at ha
    cases ha
  | false =>
    have hlisted := h.queued msg.id old hold hdone
    by_cases hqueue : msg.queueName = old.queueName
    · have hnodup := hu.once old.queueName
      rw [queue_add, if_pos hqueue] at hnodup
      exact (List.nodup_append.mp hnodup).2.2 msg.id hlisted msg.id
        (List.mem_singleton.mpr rfl) rfl
    · have hstill : msg.id ∈ (s.add hash msg).queue old.queueName := by
        rw [queue_add, if_neg hqueue]
        exact hlisted
      obtain ⟨found, hfound, heq⟩ := hu.own old.queueName msg.id hstill
      obtain rfl := Option.some.inj (hget.symm.trans hfound)
      exact hqueue heq

end MessageStore

/-! ## Runs of a node -/

namespace QueueNode

open MessageStore

/-- A node that does not restart. -/
def serve (cfg : QueueConfig) (n : QueueNode P) (a : NodeAction P) : Option (QueueNode P) :=
  match a with
  | .restart _ => none
  | _ => some (RecordedNode.nodeStep cfg n a)

/-- `publish` adds no id that the store already has. -/
def storesFresh (n : QueueNode P) : NodeAction P → Bool
  | .publish targeted _ _ messageId _ => !targeted || (n.store.get messageId).isNone
  | _ => true

/-- An operation adds an unknown message, or none, or `publish` adds a stored id. -/
theorem serve_cases {cfg : QueueConfig} {n n' : QueueNode P} {a : NodeAction P}
    (h : n.serve cfg a = some n') :
    n.storesFresh a = true ∧ (Keeps n.store n'.store ∨
        ∃ msg, n.store.get msg.id = none ∧ n'.store = n.store.add cfg.hash msg) ∨
      n.storesFresh a = false ∧ ∃ msg old, n.store.get msg.id = some old ∧ msg.acked = false ∧
        n'.store = n.store.add cfg.hash msg := by
  cases a with
  | publish targeted queueName payload messageId now =>
    obtain rfl := Option.some.inj h
    cases targeted with
    | false => exact Or.inl ⟨rfl, Or.inl (.of_retains (.refl _))⟩
    | true =>
      let msg : QueueMessage P :=
        { id := messageId, queueName := queueName, payload := payload, createdAt := now }
      cases hget : n.store.get messageId with
      | none => exact Or.inl ⟨by simp [storesFresh, hget], Or.inr ⟨msg, hget, rfl⟩⟩
      | some old => exact Or.inr ⟨by simp [storesFresh, hget], msg, old, hget, rfl, rfl⟩
  | handlePublish message =>
    obtain rfl := Option.some.inj h
    refine Or.inl ⟨rfl, ?_⟩
    show Keeps n.store (n.handlePublish cfg message).store ∨ ∃ msg, n.store.get msg.id = none ∧
      (n.handlePublish cfg message).store = n.store.add cfg.hash msg
    unfold handlePublish
    split
    · exact Or.inl (.of_retains (.refl _))
    · rename_i hget
      exact Or.inr ⟨message, hget, rfl⟩
  | consume responsible queueName limit now =>
    obtain rfl := Option.some.inj h
    cases responsible with
    | false => exact Or.inl ⟨rfl, Or.inl (.of_retains (.refl _))⟩
    | true => exact Or.inl ⟨rfl, Or.inl (.of_retains (retains_handleConsume now n queueName limit))⟩
  | handleConsume queueName limit now =>
    obtain rfl := Option.some.inj h
    exact Or.inl ⟨rfl, Or.inl (.of_retains (retains_handleConsume now n queueName limit))⟩
  | ack targeted messageId =>
    obtain rfl := Option.some.inj h
    cases targeted with
    | false => exact Or.inl ⟨rfl, Or.inl (.of_retains (.refl _))⟩
    | true => exact Or.inl ⟨rfl, Or.inl (keeps_ack cfg.hash n.store messageId)⟩
  | handleAck messageId =>
    obtain rfl := Option.some.inj h
    exact Or.inl ⟨rfl, Or.inl (keeps_ack cfg.hash n.store messageId)⟩
  | nack messageId now =>
    obtain rfl := Option.some.inj h
    exact Or.inl ⟨rfl, Or.inl (.of_retains (retains_nack cfg.hash now n.store messageId))⟩
  | restart listing => cases h

theorem unique_step {cfg : QueueConfig} {n n' : QueueNode P} {a : NodeAction P}
    (ht : n.store.Tidy) (h : n.serve cfg a = some n') :
    Unique n.store n'.store ↔ n.storesFresh a = true := by
  rcases serve_cases h with ⟨hfresh, hkeeps | ⟨msg, hget, heq⟩⟩ | ⟨hstale, msg, old, hget, ha, heq⟩
  · exact iff_of_true ((ht.keeps hkeeps).unique fun _ => hkeeps.acked) hfresh
  · rw [heq]
    exact iff_of_true ((ht.add cfg.hash hget).unique fun _ => acked_add cfg.hash hget) hfresh
  · rw [heq, hstale]
    exact iff_of_false (ht.not_unique_add cfg.hash hget ha) (by simp)

theorem tidy_step {cfg : QueueConfig} {n n' : QueueNode P} {a : NodeAction P}
    (ht : n.store.Tidy) (h : n.serve cfg a = some n') (hfresh : n.storesFresh a = true) :
    n'.store.Tidy := by
  rcases serve_cases h with ⟨-, hkeeps | ⟨msg, hget, heq⟩⟩ | ⟨hstale, -⟩
  · exact ht.keeps hkeeps
  · rw [heq]
    exact ht.add cfg.hash hget
  · rw [hfresh] at hstale
    cases hstale

theorem unique_iff_of_tidy {cfg : QueueConfig} {n n' : QueueNode P} {acts : List (NodeAction P)}
    (ht : n.store.Tidy) (hrun : Transition.run (serve cfg) n acts = some n') :
    Transition.EachStep (serve cfg)
        (fun n a => ∀ n', n.serve cfg a = some n' → Unique n.store n'.store) n acts ↔
      Transition.EachStep (serve cfg) (fun n a => n.storesFresh a = true) n acts := by
  have hiff : ∀ {n n' : QueueNode P} {a : NodeAction P}, n.store.Tidy → n.serve cfg a = some n' →
      ((∀ n', n.serve cfg a = some n' → Unique n.store n'.store) ↔ n.storesFresh a = true) := by
    intro n n' a ht hstep
    rw [hstep, ← unique_step ht hstep]
    simp only [Option.some.injEq, forall_eq']
  exact Transition.eachStep_congr (K := fun n => n.store.Tidy)
    (fun _ _ _ ht hstep => hiff ht hstep)
    (fun _ _ _ ht hu hstep => tidy_step ht hstep ((hiff ht hstep).mp hu)) ht hrun

/-- A node that starts over an empty directory has each message once after every operation
    exactly when `publish` never adds an id that the store already has. -/
theorem unique_iff {cfg : QueueConfig} {clock : String → ℚ} {nodeId : String}
    {acts : List (NodeAction P)} {n' : QueueNode P}
    (hrun : Transition.run (serve cfg) (boot cfg clock nodeId) acts = some n') :
    Transition.EachStep (serve cfg)
        (fun n a => ∀ n', n.serve cfg a = some n' → Unique n.store n'.store)
        (boot cfg clock nodeId) acts ↔
      Transition.EachStep (serve cfg) (fun n a => n.storesFresh a = true)
        (boot cfg clock nodeId) acts :=
  unique_iff_of_tidy Tidy.empty hrun

/-! ## Concrete runs -/

/-- A message is published, replicated to the node again, nacked, acked and sent once more. -/
def replicatedTwice : List (NodeAction ℕ) :=
  [.publish true "jobs" 7 "m1" 1, .handlePublish ⟨"m1", "mail", 8, 2, 0, 0, false⟩, .nack "m1" 3,
    .handlePublish ⟨"m2", "jobs", 9, 4, 0, 0, false⟩, .ack true "m1",
    .handlePublish ⟨"m1", "jobs", 7, 5, 0, 0, false⟩]

theorem unique_iff_replicatedTwice :
    Transition.EachStep (serve RecordedNode.oneNode)
      (fun n a => ∀ n', n.serve RecordedNode.oneNode a = some n' → Unique n.store n'.store)
      (boot RecordedNode.oneNode (fun _ => 0) "a") replicatedTwice := by
  have hrun : ∃ n', Transition.run (serve RecordedNode.oneNode)
      (boot RecordedNode.oneNode (fun _ => 0) "a") replicatedTwice = some n' := ⟨_, rfl⟩
  obtain ⟨n', hn'⟩ := hrun
  exact (unique_iff hn').mpr (by decide)

/-- An acked message is published again under its id: it is listed twice and pending again. -/
theorem republished_twice_listed :
    ¬ ∀ (acts : List (NodeAction ℕ)) (n' : QueueNode ℕ),
      Transition.run (serve RecordedNode.oneNode) (boot RecordedNode.oneNode (fun _ => 0) "a")
        acts = some n' → (n'.store.queue "jobs").Nodup ∧
          ((n'.store.getPending "jobs" 10).map QueueMessage.id).Nodup := by
  intro hclaim
  have h := hclaim [.publish true "jobs" 7 "m1" 1, .ack true "m1", .publish true "jobs" 7 "m1" 2]
    _ rfl
  revert h
  decide

end QueueNode

end Pynchronize
