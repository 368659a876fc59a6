import Pynchronize.Queue.Acks
import Pynchronize.Queue.Placement

/-!
# Replicas

With a fixed membership every ack of a message goes to all its targets, so the
copies agree in the end unless a pending copy comes to a node which no ack will
visit any more: a QUEUE_PUBLISH behind the QUEUE_ACK, or an id published again.
-/

namespace Pynchronize

open Lib

/-- The node is one of several targets of the message. -/
def QueueConfig.Replicated (cfg : QueueConfig) (messageId n : String) : Prop :=
  ∃ targets ∈ cfg.targets messageId, n ∈ targets ∧ ∃ n' ∈ targets, n' ≠ n

instance (cfg : QueueConfig) (messageId n : String) : Decidable (cfg.Replicated messageId n) :=
  inferInstanceAs (Decidable (∃ targets ∈ cfg.targets messageId, _))

namespace QueueCluster

variable {P : Type*} {cfg : QueueConfig} {s s' : QueueCluster P} {a : QueueAction P}

/-- If the message has been acked, then an ack of it is still to come to the node. -/
def AckComes (cfg : QueueConfig) (s : QueueCluster P) (messageId n : String) : Prop :=
  cfg.Replicated messageId n → (∃ k < s.calls.length, Acking s messageId k) →
    ∃ k < s.calls.length, Acking s messageId k ∧ Owes cfg s k n

instance [DecidableEq P] (s : QueueCluster P) (messageId n : String) :
    Decidable (AckComes cfg s messageId n) :=
  inferInstanceAs (Decidable (_ → _ → _))

/-- A pending copy comes to a node only ahead of an ack. -/
def AcksFollow (cfg : QueueConfig) (s : QueueCluster P) : QueueAction P → Prop
  | .publish i _ _ messageId _ => AckComes cfg s messageId i
  | .deliver j _ => ∀ p ∈ s.packets[j]?,
    match p.request with
    | .publish message => message.acked = false → (s.nodes p.dst).store.get message.id = none →
      AckComes cfg s message.id p.dst
    | _ => True
  | _ => True

instance [DecidableEq P] (s : QueueCluster P) (a : QueueAction P) :
    Decidable (AcksFollow cfg s a) :=
  match a with
  | .publish .. => (inferInstance : Decidable (AckComes ..))
  | .deliver j _ =>
    have : ∀ p : Packet P, Decidable (match p.request with
        | .publish message => message.acked = false →
          (s.nodes p.dst).store.get message.id = none → AckComes cfg s message.id p.dst
        | _ => True) := fun p =>
      match p.request with
      | .publish _ => (inferInstance : Decidable (_ → _ → _))
      | .consume .. => isTrue trivial
      | .ack _ => isTrue trivial
    (inferInstance : Decidable (∀ p ∈ s.packets[j]?, _))
  | .membership .. | .consume .. | .ack .. | .redeliver .. | .reply _ | .noReply _ =>
    isTrue trivial

theorem ackComes_of_adds {n : String} {message : QueueMessage P} (hfollow : AcksFollow cfg s a)
    (hadds : Adds cfg s a n message) (hpending : message.acked = false) :
    AckComes cfg s message.id n := by
  cases a with
  | publish i queueName payload messageId now =>
    obtain ⟨rfl, rfl, -⟩ := hadds
    exact hfollow
  | deliver j now =>
    obtain ⟨p, hj, -, rfl, hrequest, hnone⟩ := hadds
    have hfollow := hfollow p hj
    rw [hrequest] at hfollow
    exact hfollow hpending hnone
  | _ => exact False.elim hadds

/-- An ack still to come stays to come, unless it is handled at the node. -/
theorem ackComes_of_acking {messageId n : String} (hw : Wired cfg s) (h : Stepped cfg s a s')
    (hpasses : ¬ Acks cfg s a n messageId) (hcomes : AckComes cfg s messageId n) {k : ℕ}
    (hk : Acking s messageId k) : AckComes cfg s' messageId n := by
  intro hseveral _
  obtain ⟨k', -, hk', howes⟩ := hcomes hseveral ⟨k, hk.lt, hk⟩
  exact ⟨k', (hk'.step h).lt, hk'.step h, (hk'.owes_step hw h howes).resolve_right hpasses⟩

/-- An ack that starts comes to every node with a copy. -/
theorem ackComes_of_starts {messageId i n : String} {targets : List String} {msg : QueueMessage P}
    (hp : Placed cfg s) (hw : Wired cfg s)
    (hstart : StartsAck cfg s a s' messageId i targets)
    (hpasses : ¬ Acks cfg s a n messageId) (hk : Acking s' messageId s.calls.length)
    (hget : (s.nodes n).store.get messageId = some msg) : AckComes cfg s' messageId n := by
  intro _ _
  obtain ⟨targets', ht', hin⟩ := hp.stored n messageId msg hget
  have heq : some targets = some targets' :=
    hstart.lookup.symm.trans ((hp.targetNodes i messageId).trans ht')
  obtain rfl := Option.some.inj heq
  refine ⟨_, hk.lt, hk, hstart.owes n hin (hw.stored n messageId msg hget) ?_⟩
  rintro rfl
  refine hpasses ?_
  rw [hstart.action]
  exact ⟨rfl, rfl, hstart.found, targets, hstart.lookup, hin⟩

/-- Copies are acked only after an ack, and every pending copy of several still gets one. -/
structure Agreeing (cfg : QueueConfig) (s : QueueCluster P) : Prop where
  pending : ∀ n id msg, (s.nodes n).store.get id = some msg → msg.acked = false →
    AckComes cfg s id n
  unacked : ∀ id, (∀ k, ¬ Acking s id k) →
    Everywhere (fun msg => msg.id = id → msg.acked = false) s

theorem pending_step (ha : Agreeing cfg s) (hp : Placed cfg s) (hw : Wired cfg s)
    (hfollow : AcksFollow cfg s a) (h : Stepped cfg s a s') {n id : String} {msg : QueueMessage P}
    (hget : (s'.nodes n).store.get id = some msg) (hpending : msg.acked = false) :
    AckComes cfg s' id n := by
  have hpasses : ¬ Acks cfg s a n id := by
    intro hacks
    rw [acked_of_acks h hacks hget] at hpending
    cases hpending
  intro hseveral hacking
  obtain ⟨k, -, hk⟩ := hacking
  cases copyFrom h hget with
  | @old old hold hcontent =>
    obtain ⟨-, -, -, -, hacked⟩ := QueueMessage.content_eq_iff.mp hcontent
    have hpending : old.acked = false := hacked.trans hpending
    rcases acking_before h hk with hbefore | ⟨rfl, i, targets, hstart⟩
    · exact ackComes_of_acking hw h hpasses (ha.pending n id old hold hpending) hbefore hseveral
        ⟨k, hk.lt, hk⟩
    · exact ackComes_of_starts hp hw hstart hpasses hk hold hseveral ⟨_, hk.lt, hk⟩
  | acked hold hacks => exact absurd hacks hpasses
  | added hadds hid =>
    subst hid
    rcases acking_before h hk with hbefore | ⟨-, i, targets, hstart⟩
    · exact ackComes_of_acking hw h hpasses (ackComes_of_adds hfollow hadds hpending) hbefore
        hseveral ⟨k, hk.lt, hk⟩
    · exact (not_adds_of_startsAck hstart hadds).elim

theorem unacked_step (ha : Agreeing cfg s) (hw : Wired cfg s) (h : Stepped cfg s a s')
    {id : String} (hnone : ∀ k, ¬ Acking s' id k) :
    Everywhere (fun msg => msg.id = id → msg.acked = false) s' := by
  refine (ha.unacked id fun k hk => hnone k (hk.step h)).step h ?_ (by simp) ?_
  · intro msg msg' hcontent hmsg hid
    obtain ⟨hid', -, -, -, hacked⟩ := QueueMessage.content_eq_iff.mp hcontent
    exact hacked.symm.trans (hmsg (hid'.trans hid))
  · intro n messageId hacks msg hget hid
    obtain rfl : messageId = id := (hw.keyed n messageId msg hget).symm.trans hid
    obtain ⟨k, hk⟩ := acking_of_acks hw h hacks
    exact absurd hk (hnone k)

theorem Agreeing.step (ha : Agreeing cfg s) (hp : Placed cfg s) (hw : Wired cfg s)
    (hfollow : AcksFollow cfg s a) (h : Stepped cfg s a s') : Agreeing cfg s' where
  pending _ _ _ hget hpending := pending_step ha hp hw hfollow h hget hpending
  unacked _ hnone := unacked_step ha hw h hnone

/-- At rest the copies of a message agree. -/
theorem Agreeing.acked_eq (ha : Agreeing cfg s) (hflight : ∀ p ∈ s.packets, p.stage ≠ .inFlight)
    (hreturned : ∀ c ∈ s.calls, c.stage.isReturned = true) {id : String}
    {targets : List String} (ht : cfg.targets id = some targets) {n n' : String}
    (hn : n ∈ targets) (hn' : n' ∈ targets) {msg msg' : QueueMessage P}
    (hget : (s.nodes n).store.get id = some msg) (hget' : (s.nodes n').store.get id = some msg')
    (hkeyed : ∀ n, (s.nodes n).store.Keyed) : msg.acked = msg'.acked := by
  by_cases heq : n = n'
  · subst heq
    cases hget.symm.trans hget'
    rfl
  by_cases hacking : ∃ k, Acking s id k
  · obtain ⟨k, hk⟩ := hacking
    have hdone : ∀ {n n' : String} {msg : QueueMessage P}, n ∈ targets → n' ∈ targets →
        n' ≠ n → (s.nodes n).store.get id = some msg → msg.acked = true := by
      intro n n' msg hn hn' hne hget
      by_contra hpending
      obtain ⟨k', -, ⟨c, hc, -⟩, howes⟩ := ha.pending n id msg hget (by simpa using hpending)
        ⟨targets, ht, hn, n', hn', hne⟩ ⟨k, hk.lt, hk⟩
      obtain ⟨result, hresult⟩ := exists_result (hreturned c (List.mem_of_getElem? hc))
      exact not_owes_of_returned hc hresult (fun p hp _ _ => hflight p hp) howes
    rw [hdone hn hn' (Ne.symm heq) hget, hdone hn' hn heq hget']
  · have hall := ha.unacked id fun k hk => hacking ⟨k, hk⟩
    rw [hall.stores n id msg hget (hkeyed n id msg hget),
      hall.stores n' id msg' hget' (hkeyed n' id msg' hget')]

/-- Replicas converge in a run with a fixed membership in which acks follow the copies. -/
theorem replicas_converge (cfg : QueueConfig) (clock : String → String → ℚ)
    (acts : List (QueueAction P)) (t : QueueCluster P)
    (hrun : run cfg (boot cfg clock) acts = some t)
    (hfixed : EachStep cfg (FixedRing cfg) (boot cfg clock) acts)
    (hfollow : EachStep cfg (AcksFollow cfg) (boot cfg clock) acts)
    (hflight : ∀ p ∈ t.packets, p.stage ≠ .inFlight)
    (hreturned : ∀ c ∈ t.calls, c.stage.isReturned = true) (i id : String)
    (targets : List String)
    (ht : (t.nodes i).consistentHash.getNodesForKey cfg.hash id cfg.replicationFactor =
      some targets) :
    ∀ n ∈ targets, ∀ n' ∈ targets, ∀ msg msg', (t.nodes n).store.get id = some msg →
      (t.nodes n').store.get id = some msg' → msg.acked = msg'.acked := by
  intro n hn n' hn' msg msg' hget hget'
  obtain ⟨hw, hp, ha⟩ : Wired cfg t ∧ Placed cfg t ∧ Agreeing cfg t := by
    refine Transition.run_preserves (I := fun s => Wired cfg s ∧ Placed cfg s ∧ Agreeing cfg s)
      (fun s a s' hs hstep hmove => ⟨hs.1.step (stepped hmove),
        hs.2.1.step hs.1 hstep.1 (stepped hmove),
        hs.2.2.step hs.2.1 hs.1 hstep.2 (stepped hmove)⟩)
      ⟨wired_boot clock, placed_boot clock, ?_, ?_⟩ (hfixed.and hfollow) hrun
    · intro n id msg hget
      cases hget
    · exact fun _ _ => everywhere_boot clock
  rw [hp.ring i] at ht
  exact ha.acked_eq hflight hreturned ht hn hn' hget hget' hw.keyed

/-- `b` gets the message first and the QUEUE_ACK of it then. -/
def orderedRun : List (QueueAction String) :=
  [.publish "a" "orders" "book" "m" 0, .ack "a" "m", .deliver 0 1, .deliver 1 2, .reply 0, .reply 1]

theorem replicas_converge_ordered :
    ∃ t, run replicatedPair (boot replicatedPair fun _ _ => 0) orderedRun = some t ∧
      ∀ msg msg', (t.nodes "a").store.get "m" = some msg →
        (t.nodes "b").store.get "m" = some msg' → msg.acked = msg'.acked := by
  have hrun : (run replicatedPair (boot replicatedPair fun _ _ => 0) orderedRun).any (fun t =>
        (∀ p ∈ t.packets, p.stage ≠ .inFlight) ∧ (∀ c ∈ t.calls, c.stage.isReturned = true) ∧
        (t.nodes "a").consistentHash.getNodesForKey md5 "m" 2 = some ["a", "b"]) = true ∧
      EachStep replicatedPair (AcksFollow replicatedPair) (boot replicatedPair fun _ _ => 0)
        orderedRun := by
    decide +kernel
  obtain ⟨hrun, hfollow⟩ := hrun
  obtain ⟨t, ht, hend⟩ := (Option.any_eq_true _ _).mp hrun
  obtain ⟨hflight, hreturned, htargets⟩ := of_decide_eq_true hend
  have hfixed : EachStep replicatedPair (FixedRing replicatedPair)
      (boot replicatedPair fun _ _ => 0) orderedRun :=
    Transition.eachStep_of_forall _ (by simp [orderedRun, FixedRing])
  exact ⟨t, ht, replicas_converge replicatedPair _ orderedRun t ht hfixed hfollow hflight hreturned
    "a" "m" _ htargets "a" (by simp) "b" (by simp)⟩

/-- The QUEUE_ACK overtakes the QUEUE_PUBLISH: `b` keeps the message pending. -/
theorem ack_overtakes_publish :
    ∃ t, run replicatedPair (boot replicatedPair fun _ _ => 0)
        ([.publish "a" "orders" "book" "m" 0, .ack "a" "m", .deliver 1 1, .deliver 0 2, .reply 0,
          .reply 1] : List (QueueAction String)) = some t ∧
      (∀ p ∈ t.packets, p.stage ≠ .inFlight) ∧ (∀ c ∈ t.calls, c.stage.isReturned = true) ∧
      (t.nodes "a").consistentHash.getNodesForKey md5 "m" 2 = some ["a", "b"] ∧
      (∃ msg ∈ (t.nodes "a").store.get "m", msg.acked = true) ∧
      ∃ msg ∈ (t.nodes "b").store.get "m", msg.acked = false := by
  have hrun : (run replicatedPair (boot replicatedPair fun _ _ => 0)
      ([.publish "a" "orders" "book" "m" 0, .ack "a" "m", .deliver 1 1, .deliver 0 2, .reply 0,
          .reply 1] : List (QueueAction String))).any (fun t =>
      (∀ p ∈ t.packets, p.stage ≠ .inFlight) ∧ (∀ c ∈ t.calls, c.stage.isReturned = true) ∧
      (t.nodes "a").consistentHash.getNodesForKey md5 "m" 2 = some ["a", "b"] ∧
      (∃ msg ∈ (t.nodes "a").store.get "m", msg.acked = true) ∧
      ∃ msg ∈ (t.nodes "b").store.get "m", msg.acked = false) = true := by
    decide +kernel
  obtain ⟨t, ht, h⟩ := (Option.any_eq_true _ _).mp hrun
  exact ⟨t, ht, of_decide_eq_true h⟩

end QueueCluster

end Pynchronize
