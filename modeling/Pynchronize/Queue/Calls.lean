import Pynchronize.Lib.Records
import Pynchronize.Queue.Cluster

/-!
# Calls and their requests

`Stepped` lists what each possible action does. A call goes on until it has
returned, and it owes its request to every node it still has to visit and to
every node that has not handled the request yet.
-/

namespace Pynchronize.QueueCluster

open Lib

variable {P : Type*} {cfg : QueueConfig}

/-! ## The cases of a step -/

inductive Stepped (cfg : QueueConfig) (s : QueueCluster P) :
    QueueAction P → QueueCluster P → Prop
  | membership {i : String} {event : Membership.Event} {m : Membership} (hi : i ∈ cfg.nodes)
      (hm : (s.nodes i).membership.step cfg.hash event = some m) :
      Stepped cfg s (.membership i event) (s.setNode i { s.nodes i with membership := m })
  | publishHere {i queueName messageId : String} {payload : P} {now : ℚ} {targets : List String}
      (hi : i ∈ cfg.nodes) (ht : (s.nodes i).targetNodes cfg messageId = some targets)
      (hin : i ∈ targets) :
      Stepped cfg s (.publish i queueName payload messageId now)
        ((s.store cfg i ⟨messageId, queueName, payload, now, 0, 0, false⟩).startCall cfg i
          (.publish ⟨messageId, queueName, payload, now, 0, 0, false⟩) none targets)
  | publishAway {i queueName messageId : String} {payload : P} {now : ℚ} {targets : List String}
      (hi : i ∈ cfg.nodes) (ht : (s.nodes i).targetNodes cfg messageId = some targets)
      (hout : i ∉ targets) :
      Stepped cfg s (.publish i queueName payload messageId now)
        (s.startCall cfg i (.publish ⟨messageId, queueName, payload, now, 0, 0, false⟩)
          (some ⟨messageId, queueName, payload, now, 0, 0, false⟩) targets)
  | consumeHere {i queueName : String} {limit : ℤ} {now : ℚ} (hi : i ∈ cfg.nodes)
      (hr : (s.nodes i).consistentHash.getNode cfg.hash queueName = some (some i)) :
      Stepped cfg s (.consume i queueName limit now)
        ((s.setNode i ((s.nodes i).handleConsume now queueName limit).1).addCall
          ⟨i, .consume queueName limit, none,
            .returned (.messages ((s.nodes i).handleConsume now queueName limit).2)⟩)
  | consumeAway {i queueName nodeId : String} {limit : ℤ} {now : ℚ} (hi : i ∈ cfg.nodes)
      (hr : (s.nodes i).consistentHash.getNode cfg.hash queueName = some (some nodeId))
      (hne : nodeId ≠ i) (hn : nodeId ∈ cfg.nodes) :
      Stepped cfg s (.consume i queueName limit now)
        ((s.addCall ⟨i, .consume queueName limit, none, .sending s.packets.length []⟩).send
          s.calls.length ⟨i, .consume queueName limit, none, .sending s.packets.length []⟩ nodeId
          (.consume queueName limit) [])
  | consumeNowhere {i queueName : String} {limit : ℤ} {now : ℚ} {responsible : Option String}
      (hi : i ∈ cfg.nodes)
      (hr : (s.nodes i).consistentHash.getNode cfg.hash queueName = some responsible)
      (hnone : ∀ nodeId ∈ cfg.nodes, responsible ≠ some nodeId) :
      Stepped cfg s (.consume i queueName limit now)
        (s.addCall ⟨i, .consume queueName limit, none, .returned (.messages [])⟩)
  | ackUnknown {i messageId : String} (hi : i ∈ cfg.nodes)
      (hget : (s.nodes i).store.get messageId = none) :
      Stepped cfg s (.ack i messageId)
        (s.addCall ⟨i, .ack messageId, none, .returned (.acked false)⟩)
  | ackHere {i messageId : String} {msg : QueueMessage P} {targets : List String}
      (hi : i ∈ cfg.nodes) (hget : (s.nodes i).store.get messageId = some msg)
      (ht : (s.nodes i).targetNodes cfg messageId = some targets) (hin : i ∈ targets) :
      Stepped cfg s (.ack i messageId)
        ((s.setNode i ((s.nodes i).handleAck cfg messageId)).startCall cfg i (.ack messageId) none
          targets)
  | ackAway {i messageId : String} {msg : QueueMessage P} {targets : List String}
      (hi : i ∈ cfg.nodes) (hget : (s.nodes i).store.get messageId = some msg)
      (ht : (s.nodes i).targetNodes cfg messageId = some targets) (hout : i ∉ targets) :
      Stepped cfg s (.ack i messageId) (s.startCall cfg i (.ack messageId) none targets)
  | redeliver {i messageId : String} {now : ℚ} (hi : i ∈ cfg.nodes) :
      Stepped cfg s (.redeliver i messageId now)
        (s.setNode i ((s.nodes i).redeliver cfg now messageId))
  | deliver {j : ℕ} {now : ℚ} {p : Packet P} (hj : s.packets[j]? = some p)
      (hstage : p.stage = .inFlight) : Stepped cfg s (.deliver j now) (s.handle cfg j p now)
  | reply {k j : ℕ} {call : QueueCall P} {p : Packet P} {rest : List String}
      {response : Option (List (QueueMessage P))} (hk : s.calls[k]? = some call)
      (hstage : call.stage = .sending j rest) (hj : s.packets[j]? = some p)
      (hresponse : p.stage = .handled response) :
      Stepped cfg s (.reply k) (s.resume cfg k call rest response)
  | noReply {k j : ℕ} {call : QueueCall P} {rest : List String} (hk : s.calls[k]? = some call)
      (hstage : call.stage = .sending j rest) :
      Stepped cfg s (.noReply k) (s.resume cfg k call rest none)

theorem stepped_publish {s s' : QueueCluster P} {i queueName messageId : String} {payload : P}
    {now : ℚ} (hi : i ∈ cfg.nodes)
    (h : s.publish cfg i queueName payload messageId now = some s') :
    Stepped cfg s (.publish i queueName payload messageId now) s' := by
  obtain ⟨targets, ht, rfl⟩ := Option.map_eq_some_iff.mp h
  dsimp only
  split
  · rename_i hin
    exact .publishHere hi ht hin
  · rename_i hout
    exact .publishAway hi ht hout

theorem stepped_consume {s s' : QueueCluster P} {i queueName : String} {limit : ℤ} {now : ℚ}
    (hi : i ∈ cfg.nodes) (h : s.consume cfg i queueName limit now = some s') :
    Stepped cfg s (.consume i queueName limit now) s' := by
  obtain ⟨responsible, hr, rfl⟩ := Option.map_eq_some_iff.mp h
  dsimp only
  split
  · rename_i hhere
    subst hhere
    exact .consumeHere hi hr
  · rename_i hhere
    split
    · rename_i nodeId
      split
      · rename_i hn
        exact .consumeAway hi hr (fun heq => hhere (congrArg some heq)) hn
      · rename_i hn
        exact .consumeNowhere hi hr fun other hother heq => hn (Option.some.inj heq ▸ hother)
    · exact .consumeNowhere hi hr fun _ _ heq => by cases heq

theorem stepped_ack {s s' : QueueCluster P} {i messageId : String} (hi : i ∈ cfg.nodes)
    (h : s.ack cfg i messageId = some s') : Stepped cfg s (.ack i messageId) s' := by
  unfold ack at h
  split at h
  · rename_i hget
    obtain rfl := Option.some.inj h
    exact .ackUnknown hi hget
  · rename_i msg hget
    obtain ⟨targets, ht, rfl⟩ := Option.map_eq_some_iff.mp h
    split
    · rename_i hin
      exact .ackHere hi hget ht hin
    · rename_i hout
      exact .ackAway hi hget ht hout

theorem stepped {s s' : QueueCluster P} {a : QueueAction P} (h : s.step cfg a = some s') :
    Stepped cfg s a s' := by
  cases a with
  | membership i event =>
    simp only [step] at h
    split at h
    · rename_i hi
      obtain ⟨m, hm, rfl⟩ := Option.map_eq_some_iff.mp h
      exact .membership hi hm
    · cases h
  | publish i queueName payload messageId now =>
    simp only [step] at h
    split at h
    · rename_i hi
      exact stepped_publish hi h
    · cases h
  | consume i queueName limit now =>
    simp only [step] at h
    split at h
    · rename_i hi
      exact stepped_consume hi h
    · cases h
  | ack i messageId =>
    simp only [step] at h
    split at h
    · rename_i hi
      exact stepped_ack hi h
    · cases h
  | redeliver i messageId now =>
    simp only [step] at h
    split at h
    · rename_i hi
      obtain rfl := Option.some.inj h
      exact .redeliver hi
    · cases h
  | deliver j now =>
    simp only [step] at h
    split at h
    · rename_i p hj
      split at h
      · rename_i hstage
        obtain rfl := Option.some.inj h
        exact .deliver hj hstage
      · cases h
    · cases h
  | reply k =>
    simp only [step] at h
    split at h
    · rename_i call hk
      split at h
      · rename_i j rest hstage
        split at h
        · rename_i response hresponse
          obtain ⟨p, hj, hp⟩ := Option.map_eq_some_iff.mp hresponse
          obtain rfl := Option.some.inj h
          exact .reply hk hstage hj hp
        · cases h
      · cases h
    · cases h
  | noReply k =>
    simp only [step] at h
    split at h
    · rename_i call hk
      split at h
      · rename_i j rest hstage
        obtain rfl := Option.some.inj h
        exact .noReply hk hstage
      · cases h
    · cases h

/-! ## The loop of sends -/

/-- The request that the loop of a call sends. -/
def Asks (s : QueueCluster P) (call : QueueCall P) (request : QueueRequest P) : Prop :=
  match call.op with
  | .publish message => request = .publish (s.current call message)
  | .ack messageId => request = .ack messageId
  | .consume queueName limit => request = .consume queueName limit

/-- How a call returns that waited for a response. -/
def Returns (op : QueueOp P) (response : Option (List (QueueMessage P))) : QueueResult P :=
  match op with
  | .publish message => .published message.id
  | .ack _ => .acked true
  | .consume .. => .messages (response.getD [])

/-- `nodeId` gets a request of a call whose loop comes to it. -/
def Visits (cfg : QueueConfig) (call : QueueCall P) (nodeId : String) : Prop :=
  nodeId ∈ cfg.nodes ∧ nodeId ≠ call.node

/-- A call goes on: it returns, or it sends the next request. -/
inductive Resumed (cfg : QueueConfig) (s : QueueCluster P) (k : ℕ) (call : QueueCall P)
    (rest : List String) (response : Option (List (QueueMessage P))) : QueueCluster P → Prop
  | returns (hdone : (∃ queueName limit, call.op = .consume queueName limit) ∨
        ∀ n ∈ rest, ¬ Visits cfg call n) :
      Resumed cfg s k call rest response
        (s.setStage k call (.returned (Returns call.op response)))
  | sends {nodeId : String} {rest' : List String} {request : QueueRequest P}
      (hask : s.Asks call request) (hv : Visits cfg call nodeId) (hmem : nodeId ∈ rest)
      (hrest : ∀ n ∈ rest, Visits cfg call n → n = nodeId ∨ n ∈ rest')
      (hsub : ∀ n ∈ rest', n ∈ rest) (hlen : rest'.length < rest.length) :
      Resumed cfg s k call rest response (s.send k call nodeId request rest')

theorem resumed_sendNext (s : QueueCluster P) (k : ℕ) (call : QueueCall P)
    {request : QueueRequest P} (hask : s.Asks call request)
    (response : Option (List (QueueMessage P))) (rest : List String) :
    Resumed cfg s k call rest response
      (s.sendNext cfg k call request (Returns call.op response) rest) := by
  induction rest with
  | nil => exact .returns (Or.inr fun n hn => absurd hn List.not_mem_nil)
  | cons nodeId rest ih =>
    unfold sendNext
    split
    · rename_i hskip
      have hskip : ¬ Visits cfg call nodeId := fun hv => hskip.elim hv.2 fun hout => hout hv.1
      generalize s.sendNext cfg k call request (Returns call.op response) rest = s' at ih ⊢
      cases ih with
      | returns hdone =>
        refine .returns (hdone.imp id fun hnone n hn => ?_)
        rcases List.mem_cons.mp hn with rfl | hn
        · exact hskip
        · exact hnone n hn
      | sends hask hv hmem hrest hsub hlen =>
        refine .sends hask hv (List.mem_cons_of_mem _ hmem) (fun n hn hvn => ?_)
          (fun n hn => List.mem_cons_of_mem _ (hsub n hn)) (Nat.lt_succ_of_lt hlen)
        rcases List.mem_cons.mp hn with rfl | hn
        · exact absurd hvn hskip
        · exact hrest n hn hvn
    · rename_i hskip
      have hskip := not_or.mp hskip
      exact .sends hask ⟨not_not.mp hskip.2, hskip.1⟩ (List.mem_cons_self ..)
        (fun n hn _ => List.mem_cons.mp hn) (fun n hn => List.mem_cons_of_mem _ hn)
        (Nat.lt_succ_self _)

theorem resumed (s : QueueCluster P) (k : ℕ) (call : QueueCall P) (rest : List String)
    (response : Option (List (QueueMessage P))) :
    Resumed cfg s k call rest response (s.resume cfg k call rest response) := by
  obtain ⟨node, op, object, stage⟩ := call
  cases op with
  | publish message =>
    exact resumed_sendNext s k ⟨node, .publish message, object, stage⟩ rfl response rest
  | ack messageId =>
    exact resumed_sendNext s k ⟨node, .ack messageId, object, stage⟩ rfl response rest
  | consume queueName limit => exact .returns (Or.inl ⟨queueName, limit, rfl⟩)

theorem Resumed.nodes {s s' : QueueCluster P} {k : ℕ} {call : QueueCall P} {rest : List String}
    {response : Option (List (QueueMessage P))} (h : Resumed cfg s k call rest response s') :
    s'.nodes = s.nodes := by
  cases h with
  | returns => rfl
  | sends => rfl

/-- A resumed call changes its stage; the other calls are as before. -/
theorem Resumed.calls {s s' : QueueCluster P} {k : ℕ} {call : QueueCall P} {rest : List String}
    {response : Option (List (QueueMessage P))} (h : Resumed cfg s k call rest response s') :
    ∃ stage, s'.calls = s.calls.set k { call with stage := stage } ∧
      stage ≠ .returned (.acked false) ∧
      ∀ result, stage = .returned result → ∃ response, result = Returns call.op response := by
  cases h with
  | returns =>
    refine ⟨_, rfl, ?_, fun result h => ⟨response, by cases h; rfl⟩⟩
    cases call.op <;> simp [Returns]
  | sends => exact ⟨_, rfl, by simp, fun result h => by cases h⟩

/-! ## What a call keeps -/

/-- A call stays what it is, and a result stays. -/
structure Continues (c c' : QueueCall P) : Prop where
  node : c'.node = c.node
  op : c'.op = c.op
  returned : ∀ r, c.stage = .returned r → c'.stage = .returned r
  failed : c'.stage = .returned (.acked false) → c.stage = .returned (.acked false)

theorem Continues.refl (c : QueueCall P) : Continues c c := ⟨rfl, rfl, fun _ h => h, id⟩

theorem Continues.trans {c c' c'' : QueueCall P} (h : Continues c c') (h' : Continues c' c'') :
    Continues c c'' :=
  ⟨h'.node.trans h.node, h'.op.trans h.op, fun r hr => h'.returned r (h.returned r hr),
    fun hf => h.failed (h'.failed hf)⟩

/-- Every old call is there, at its place. -/
def KeepsCalls (s s' : QueueCluster P) : Prop :=
  ∀ (k : ℕ) c, s.calls[k]? = some c → ∃ c', s'.calls[k]? = some c' ∧ Continues c c'

theorem Resumed.keepsCalls {s s' : QueueCluster P} {k j : ℕ} {call : QueueCall P}
    {rest rest' : List String} {response : Option (List (QueueMessage P))}
    (h : Resumed cfg s k call rest response s') (hk : s.calls[k]? = some call)
    (hstage : call.stage = .sending j rest') : KeepsCalls s s' := by
  obtain ⟨stage, hcalls, hfailed, -⟩ := h.calls
  intro k' c hk'
  rw [hcalls, List.getElem?_set]
  split
  · rename_i heq
    subst heq
    obtain rfl := Option.some.inj (hk.symm.trans hk')
    rw [if_pos (List.getElem?_eq_some_iff.mp hk).1]
    refine ⟨_, rfl, rfl, rfl, fun r hr => ?_, fun hf => absurd hf hfailed⟩
    rw [hstage] at hr
    cases hr
  · exact ⟨c, hk', .refl c⟩

theorem detach_cases (s : QueueCluster P) (i messageId : String) (c : QueueCall P) :
    s.detach i messageId c = c ∨ ∃ message, c.op = .publish message ∧ c.node = i ∧
      message.id = messageId ∧
      s.detach i messageId c = { c with object := some (s.current c message) } := by
  unfold detach
  split
  · rename_i message hop hobject
    split
    · rename_i h
      exact Or.inr ⟨message, hop, h.1, h.2, rfl⟩
    · exact Or.inl rfl
  · exact Or.inl rfl

theorem continues_detach (s : QueueCluster P) (i messageId : String) (c : QueueCall P) :
    Continues c (s.detach i messageId c) := by
  rcases s.detach_cases i messageId c with h | ⟨message, -, -, -, h⟩
  · rw [h]
    exact .refl c
  · rw [h]
    exact ⟨rfl, rfl, fun _ h => h, id⟩

theorem stage_detach (s : QueueCluster P) (i messageId : String) (c : QueueCall P) :
    (s.detach i messageId c).stage = c.stage := by
  rcases s.detach_cases i messageId c with h | ⟨_, -, -, -, h⟩ <;> rw [h]

theorem getElem?_store (cfg : QueueConfig) (s : QueueCluster P) (i : String)
    (message : QueueMessage P) {k : ℕ} {c : QueueCall P} (hk : s.calls[k]? = some c) :
    (s.store cfg i message).calls[k]? = some (s.detach i message.id c) := by
  show (s.calls.map _)[k]? = _
  rw [List.getElem?_map, hk]
  rfl

/-! ## What a call owes -/

/-- The nodes before a call in its loop. -/
def toVisit (c : QueueCall P) : List String :=
  match c.stage with
  | .sending _ rest => rest
  | .returned _ => []

/-- The call has still to visit the node, or its request has not been handled there. -/
def Owes (cfg : QueueConfig) (s : QueueCluster P) (k : ℕ) (n : String) : Prop :=
  (∃ c ∈ s.calls[k]?, n ∈ toVisit c ∧ Visits cfg c n) ∨
    ∃ p ∈ s.packets, p.call = k ∧ p.dst = n ∧ p.stage = .inFlight

instance [DecidableEq P] (s : QueueCluster P) (k : ℕ) (n : String) : Decidable (Owes cfg s k n) :=
  have : ∀ c : QueueCall P, Decidable (n ∈ toVisit c ∧ Visits cfg c n) :=
    fun _ => inferInstanceAs (Decidable (_ ∧ _ ∧ _))
  inferInstanceAs (Decidable (_ ∨ _))

theorem Owes.mono {s s' : QueueCluster P} {k : ℕ} {n : String} (h : Owes cfg s k n)
    (hc : ∀ c, s.calls[k]? = some c →
      ∃ c', s'.calls[k]? = some c' ∧ c'.node = c.node ∧ c'.stage = c.stage)
    (hp : ∀ p ∈ s.packets, p ∈ s'.packets) : Owes cfg s' k n := by
  rcases h with ⟨c, hk, hn, hv⟩ | ⟨p, hmem, hrest⟩
  · obtain ⟨c', hk', hnode, hstage⟩ := hc c hk
    refine Or.inl ⟨c', hk', ?_, hv.1, hnode ▸ hv.2⟩
    unfold toVisit
    rw [hstage]
    exact hn
  · exact Or.inr ⟨p, hp p hmem, hrest⟩

theorem Resumed.packets {s s' : QueueCluster P} {k : ℕ} {call : QueueCall P} {rest : List String}
    {response : Option (List (QueueMessage P))} (h : Resumed cfg s k call rest response s') :
    ∀ p ∈ s.packets, p ∈ s'.packets := by
  cases h with
  | returns => exact fun _ h => h
  | sends => exact fun p hp => List.mem_append_left _ hp

/-- A call that goes on still owes what it owed to the nodes it had to visit. -/
theorem Resumed.owes {s s' : QueueCluster P} {k : ℕ} {call : QueueCall P} {rest : List String}
    {response : Option (List (QueueMessage P))} (h : Resumed cfg s k call rest response s')
    (hk : k < s.calls.length) (hop : ∀ queueName limit, call.op ≠ .consume queueName limit)
    {n : String} (hn : n ∈ rest) (hv : Visits cfg call n) : Owes cfg s' k n := by
  cases h with
  | returns hdone =>
    rcases hdone with ⟨queueName, limit, hconsume⟩ | hnone
    · exact absurd hconsume (hop queueName limit)
    · exact absurd hv (hnone n hn)
  | @sends nodeId rest' request hask hv' hmem hrest =>
    rcases hrest n hn hv with rfl | hn'
    · exact Or.inr ⟨_, List.mem_append_right _ (List.mem_singleton_self _), rfl, rfl, rfl⟩
    · exact Or.inl ⟨{ call with stage := .sending s.packets.length rest' },
        List.getElem?_set_self hk, hn', hv⟩

/-- A call that has returned owes nothing once its requests are handled. -/
theorem not_owes_of_returned {s : QueueCluster P} {k : ℕ} {c : QueueCall P} {r : QueueResult P}
    (hk : s.calls[k]? = some c) (hstage : c.stage = .returned r)
    {n : String} (hp : ∀ p ∈ s.packets, p.call = k → p.dst = n → p.stage ≠ .inFlight) :
    ¬ Owes cfg s k n := by
  rintro (⟨c', hk', hn, -⟩ | ⟨p, hmem, hcall, hdst, hflight⟩)
  · obtain rfl := Option.some.inj (hk.symm.trans hk')
    unfold toVisit at hn
    rw [hstage] at hn
    cases hn
  · exact hp p hmem hcall hdst hflight

theorem exists_result {stage : QueueStage P} (h : stage.isReturned = true) :
    ∃ result, stage = .returned result := by
  cases stage with
  | sending j rest => simp [QueueStage.isReturned] at h
  | returned result => exact ⟨result, rfl⟩

/-! ## The calls after a step -/

/-- How a new call begins. -/
def Begins (cfg : QueueConfig) (s : QueueCluster P) (a : QueueAction P) (s' : QueueCluster P)
    (c : QueueCall P) : Prop :=
  match c.op with
  | .publish message =>
    ∃ targets, a = .publish c.node message.queueName message.payload message.id message.createdAt ∧
      message = ⟨message.id, message.queueName, message.payload, message.createdAt, 0, 0, false⟩ ∧
      (s.nodes c.node).targetNodes cfg message.id = some targets ∧
      ∀ n ∈ targets, Visits cfg c n → Owes cfg s' s.calls.length n
  | .ack messageId =>
    a = .ack c.node messageId ∧ (((s.nodes c.node).store.get messageId = none ∧
        c.stage = .returned (.acked false)) ∨
      (c.stage ≠ .returned (.acked false) ∧ ∃ msg targets,
        (s.nodes c.node).store.get messageId = some msg ∧
        (s.nodes c.node).targetNodes cfg messageId = some targets ∧
        ∀ n ∈ targets, Visits cfg c n → Owes cfg s' s.calls.length n))
  | .consume queueName limit => ∃ now, a = .consume c.node queueName limit now

/-- The calls after a step: the old ones go on, a new one begins. -/
structure CallsStep (cfg : QueueConfig) (s : QueueCluster P) (a : QueueAction P)
    (s' : QueueCluster P) : Prop where
  old : KeepsCalls s s'
  new : ∀ (k : ℕ) c', s'.calls[k]? = some c' → k < s.calls.length ∨
    k = s.calls.length ∧ Begins cfg s a s' c'

theorem callsStep_same {s s' : QueueCluster P} {a : QueueAction P} (h : s'.calls = s.calls) :
    CallsStep cfg s a s' := by
  refine ⟨fun k c hk => ⟨c, h ▸ hk, .refl c⟩, fun k c' hk => Or.inl ?_⟩
  rw [h] at hk
  exact (List.getElem?_eq_some_iff.mp hk).1

/-- A call is appended to calls that go on. -/
theorem callsStep_append {s s' : QueueCluster P} {a : QueueAction P} {old : List (QueueCall P)}
    {c : QueueCall P} (hcalls : s'.calls = old ++ [c]) (hlen : old.length = s.calls.length)
    (hold : ∀ (k : ℕ) c, s.calls[k]? = some c → ∃ c', old[k]? = some c' ∧ Continues c c')
    (hnew : Begins cfg s a s' c) : CallsStep cfg s a s' := by
  refine ⟨fun k c hk => ?_, fun k c' hk => ?_⟩
  · obtain ⟨c', hk', hcont⟩ := hold k c hk
    rw [hcalls]
    exact ⟨c', getElem?_append_of_some hk' _, hcont⟩
  · rw [hcalls] at hk
    rcases getElem?_concat_cases hk with hk' | ⟨rfl, rfl⟩
    · exact Or.inl (hlen ▸ (List.getElem?_eq_some_iff.mp hk').1)
    · exact Or.inr ⟨hlen, hnew⟩

theorem callsStep_resumed {s s' : QueueCluster P} {a : QueueAction P} {k j : ℕ}
    {call : QueueCall P} {rest rest' : List String} {response : Option (List (QueueMessage P))}
    (h : Resumed cfg s k call rest response s') (hk : s.calls[k]? = some call)
    (hstage : call.stage = .sending j rest') : CallsStep cfg s a s' := by
  refine ⟨h.keepsCalls hk hstage, fun k' c' hk' => Or.inl ?_⟩
  obtain ⟨stage, hcalls, -, -⟩ := h.calls
  rw [hcalls] at hk'
  have := (List.getElem?_eq_some_iff.mp hk').1
  rwa [List.length_set] at this

theorem calls_startCall (cfg : QueueConfig) (s : QueueCluster P) (i : String) (op : QueueOp P)
    (object : Option (QueueMessage P)) (targets : List String) :
    ∃ stage, (s.startCall cfg i op object targets).calls = s.calls ++ [⟨i, op, object, stage⟩] ∧
      stage ≠ .returned (.acked false) ∧
      ∀ result, stage = .returned result → ∃ response, result = Returns op response := by
  have hr : Resumed cfg (s.addCall ⟨i, op, object, .sending s.packets.length targets⟩)
      s.calls.length ⟨i, op, object, .sending s.packets.length targets⟩ targets none
      (s.startCall cfg i op object targets) := resumed ..
  obtain ⟨stage, hcalls, hrest⟩ := hr.calls
  exact ⟨stage, hcalls.trans (set_concat_length ..), hrest⟩

/-- A call starts on a state `t` in which the old calls have gone on. -/
theorem callsStep_startCall {s t : QueueCluster P} {a : QueueAction P} {i : String}
    {op : QueueOp P} {object : Option (QueueMessage P)} {targets : List String}
    (hlen : t.calls.length = s.calls.length)
    (hold : ∀ (k : ℕ) c, s.calls[k]? = some c → ∃ c', t.calls[k]? = some c' ∧ Continues c c')
    (hop : ∀ queueName limit, op ≠ .consume queueName limit)
    (hnew : ∀ stage, stage ≠ .returned (.acked false) →
      (∀ n ∈ targets, n ∈ cfg.nodes → n ≠ i →
        Owes cfg (t.startCall cfg i op object targets) s.calls.length n) →
      Begins cfg s a (t.startCall cfg i op object targets) ⟨i, op, object, stage⟩) :
    CallsStep cfg s a (t.startCall cfg i op object targets) := by
  let call : QueueCall P := ⟨i, op, object, .sending t.packets.length targets⟩
  have hr : Resumed cfg (t.addCall call) t.calls.length call targets none
      (t.startCall cfg i op object targets) := resumed ..
  obtain ⟨stage, hcalls, hfailed, -⟩ := t.calls_startCall cfg i op object targets
  refine callsStep_append hcalls hlen hold (hnew stage hfailed fun n hn hcfg hne => ?_)
  rw [← hlen]
  exact hr.owes (by simp [addCall]) hop hn ⟨hcfg, hne⟩

theorem callsStep {s s' : QueueCluster P} {a : QueueAction P} (h : Stepped cfg s a s') :
    CallsStep cfg s a s' := by
  have hsame : ∀ (k : ℕ) c, s.calls[k]? = some c → ∃ c', s.calls[k]? = some c' ∧ Continues c c' :=
    fun k c hk => ⟨c, hk, .refl c⟩
  cases h with
  | membership => exact callsStep_same rfl
  | publishHere hi ht hin =>
    exact callsStep_startCall (List.length_map _)
      (fun k c hk => ⟨_, s.getElem?_store cfg _ _ hk, s.continues_detach _ _ c⟩)
      (fun _ _ => by simp)
      fun stage _ howes => ⟨_, rfl, rfl, ht, fun n hn hv => howes n hn hv.1 hv.2⟩
  | publishAway hi ht hout =>
    exact callsStep_startCall rfl hsame (fun _ _ => by simp)
      fun stage _ howes => ⟨_, rfl, rfl, ht, fun n hn hv => howes n hn hv.1 hv.2⟩
  | consumeHere hi hr => exact callsStep_append rfl rfl hsame ⟨_, rfl⟩
  | @consumeAway i queueName nodeId limit now hi hr hne hn =>
    exact callsStep_append (c := ⟨i, .consume queueName limit, none, .sending s.packets.length []⟩)
      (set_concat_length ..) rfl hsame ⟨now, rfl⟩
  | consumeNowhere hi hr hnone => exact callsStep_append rfl rfl hsame ⟨_, rfl⟩
  | ackUnknown hi hget => exact callsStep_append rfl rfl hsame ⟨rfl, Or.inl ⟨hget, rfl⟩⟩
  | ackHere hi hget ht hin =>
    exact callsStep_startCall rfl hsame (fun _ _ => by simp) fun stage hstage howes =>
      ⟨rfl, Or.inr ⟨hstage, _, _, hget, ht, fun n hn hv => howes n hn hv.1 hv.2⟩⟩
  | ackAway hi hget ht hout =>
    exact callsStep_startCall rfl hsame (fun _ _ => by simp) fun stage hstage howes =>
      ⟨rfl, Or.inr ⟨hstage, _, _, hget, ht, fun n hn hv => howes n hn hv.1 hv.2⟩⟩
  | redeliver => exact callsStep_same rfl
  | deliver => exact callsStep_same rfl
  | reply hk hstage => exact callsStep_resumed (resumed ..) hk hstage
  | noReply hk hstage => exact callsStep_resumed (resumed ..) hk hstage

/-! ## What a step does to what is owed -/

theorem Resumed.owes_of_ne {s s' : QueueCluster P} {k k' : ℕ} {call : QueueCall P}
    {rest : List String} {response : Option (List (QueueMessage P))}
    (h : Resumed cfg s k call rest response s') (hne : k ≠ k') {n : String}
    (howes : Owes cfg s k' n) : Owes cfg s' k' n := by
  obtain ⟨stage, hcalls, -, -⟩ := h.calls
  refine howes.mono (fun c hk => ⟨c, ?_, rfl, rfl⟩) h.packets
  rw [hcalls, List.getElem?_set_ne hne]
  exact hk

theorem Resumed.owes_of_sending {s s' : QueueCluster P} {k k' j : ℕ} {call : QueueCall P}
    {rest : List String} {response : Option (List (QueueMessage P))}
    (h : Resumed cfg s k call rest response s') (hk : s.calls[k]? = some call)
    (hstage : call.stage = .sending j rest)
    (hop : ∀ c, s.calls[k']? = some c → ∀ queueName limit, c.op ≠ .consume queueName limit)
    {n : String} (howes : Owes cfg s k' n) : Owes cfg s' k' n := by
  by_cases heq : k = k'
  · subst heq
    rcases howes with ⟨c, hk', hn, hv⟩ | ⟨p, hmem, hrest⟩
    · obtain rfl := Option.some.inj (hk.symm.trans hk')
      unfold toVisit at hn
      rw [hstage] at hn
      exact h.owes (List.getElem?_eq_some_iff.mp hk).1 (hop call hk) hn hv
    · exact Or.inr ⟨p, h.packets p hmem, hrest⟩
  · exact h.owes_of_ne heq howes

theorem owes_startCall {s : QueueCluster P} {i : String} {op : QueueOp P}
    {object : Option (QueueMessage P)} {targets : List String} {k : ℕ} {n : String}
    (howes : Owes cfg s k n) : Owes cfg (s.startCall cfg i op object targets) k n := by
  have hr : Resumed cfg (s.addCall ⟨i, op, object, .sending s.packets.length targets⟩)
      s.calls.length ⟨i, op, object, .sending s.packets.length targets⟩ targets none
      (s.startCall cfg i op object targets) := resumed ..
  rcases howes with ⟨c, hk, hrest⟩ | ⟨p, hmem, hrest⟩
  · have hlt : k < s.calls.length := (List.getElem?_eq_some_iff.mp hk).1
    exact hr.owes_of_ne (ne_of_gt hlt)
      (Or.inl ⟨c, getElem?_append_of_some hk _, hrest⟩)
  · exact Or.inr ⟨p, hr.packets p hmem, hrest⟩

/-- What a call owes to a node it still owes after a step, unless its request is handled there. -/
theorem owes_step {s s' : QueueCluster P} {a : QueueAction P} (h : Stepped cfg s a s') {k : ℕ}
    (hop : ∀ c, s.calls[k]? = some c → ∀ queueName limit, c.op ≠ .consume queueName limit)
    {n : String} (howes : Owes cfg s k n) :
    Owes cfg s' k n ∨ ∃ j now p, a = .deliver j now ∧ s.packets[j]? = some p ∧
      p.stage = .inFlight ∧ p.call = k ∧ p.dst = n := by
  have happend : ∀ (t : QueueCluster P) (c : QueueCall P), t.calls = s.calls ++ [c] →
      (∀ p ∈ s.packets, p ∈ t.packets) → Owes cfg t k n := fun t c hcalls hpackets =>
    howes.mono (fun c' hk => ⟨c', hcalls ▸ getElem?_append_of_some hk _, rfl, rfl⟩) hpackets
  cases h with
  | membership => exact Or.inl howes
  | publishHere =>
    exact Or.inl (owes_startCall (howes.mono (fun c hk => ⟨_, s.getElem?_store cfg _ _ hk,
      (s.continues_detach _ _ c).node, s.stage_detach _ _ c⟩) fun _ hp => hp))
  | publishAway => exact Or.inl (owes_startCall howes)
  | consumeHere => exact Or.inl (happend _ _ rfl fun _ hp => hp)
  | @consumeAway i queueName nodeId limit now =>
    exact Or.inl (happend _ ⟨i, .consume queueName limit, none, .sending s.packets.length []⟩
      (set_concat_length ..) fun _ hp => List.mem_append_left _ hp)
  | consumeNowhere => exact Or.inl (happend _ _ rfl fun _ hp => hp)
  | ackUnknown => exact Or.inl (happend _ _ rfl fun _ hp => hp)
  | ackHere => exact Or.inl (owes_startCall howes)
  | ackAway => exact Or.inl (owes_startCall howes)
  | redeliver => exact Or.inl howes
  | @deliver j now p hj hstage =>
    rcases howes with hrest | ⟨q, hmem, hcall, hdst, hflight⟩
    · exact Or.inl (Or.inl hrest)
    · obtain ⟨j', hj'⟩ := List.mem_iff_getElem?.mp hmem
      by_cases heq : j = j'
      · subst heq
        obtain rfl := Option.some.inj (hj.symm.trans hj')
        exact Or.inr ⟨j, now, p, rfl, hj, hstage, hcall, hdst⟩
      · refine Or.inl (Or.inr ⟨q, ?_, hcall, hdst, hflight⟩)
        refine List.mem_iff_getElem?.mpr ⟨j', ?_⟩
        show (s.packets.set j _)[j']? = _
        rw [List.getElem?_set_ne heq]
        exact hj'
  | reply hk hstage => exact Or.inl ((resumed ..).owes_of_sending hk hstage hop howes)
  | noReply hk hstage => exact Or.inl ((resumed ..).owes_of_sending hk hstage hop howes)

/-! ## Where a debt comes from -/

theorem Resumed.owes_before {s s' : QueueCluster P} {k k' : ℕ} {call : QueueCall P}
    {rest : List String} {response : Option (List (QueueMessage P))}
    (h : Resumed cfg s k call rest response s') {n : String} (howes : Owes cfg s' k' n) :
    Owes cfg s k' n ∨ k' = k ∧ n ∈ rest ∧ Visits cfg call n := by
  cases h with
  | returns =>
    rcases howes with ⟨c, hc, hn, hv⟩ | hpacket
    · rcases getElem?_set_cases hc with ⟨-, rfl⟩ | ⟨-, hold⟩
      · cases hn
      · exact Or.inl (Or.inl ⟨c, hold, hn, hv⟩)
    · exact Or.inl (Or.inr hpacket)
  | sends hask hv hmem hrest hsub =>
    rcases howes with ⟨c, hc, hn, hvn⟩ | ⟨p, hp, hcall, hdst, hflight⟩
    · rcases getElem?_set_cases hc with ⟨rfl, rfl⟩ | ⟨-, hold⟩
      · exact Or.inr ⟨rfl, hsub n hn, hvn⟩
      · exact Or.inl (Or.inl ⟨c, hold, hn, hvn⟩)
    · rcases List.mem_append.mp hp with hp | hp
      · exact Or.inl (Or.inr ⟨p, hp, hcall, hdst, hflight⟩)
      · obtain rfl := List.mem_singleton.mp hp
        exact Or.inr ⟨hcall.symm, hdst ▸ hmem, hdst ▸ hv⟩

/-- A new call owes to the nodes of `C` only. -/
theorem owes_of_append {s s' : QueueCluster P} {k : ℕ} {n : String} {c : QueueCall P}
    {C : String → Prop} (hcalls : s'.calls = s.calls ++ [c])
    (hpackets : ∀ p ∈ s'.packets, p ∈ s.packets ∨ p.call = s.calls.length ∧ C p.dst)
    (hvisit : ∀ n ∈ toVisit c, C n) (howes : Owes cfg s' k n) :
    Owes cfg s k n ∨ k = s.calls.length ∧ C n ∧ s'.calls[k]? = some c := by
  have hlast : s'.calls[s.calls.length]? = some c := by
    rw [hcalls, List.getElem?_concat_length]
  rcases howes with ⟨c, hc, hn, hv⟩ | ⟨p, hp, hcall, hdst, hflight⟩
  · rcases getElem?_concat_cases (hcalls ▸ hc) with hold | ⟨rfl, rfl⟩
    · exact Or.inl (Or.inl ⟨c, hold, hn, hv⟩)
    · exact Or.inr ⟨rfl, hvisit n hn, hlast⟩
  · rcases hpackets p hp with hp | ⟨hnew, hdst'⟩
    · exact Or.inl (Or.inr ⟨p, hp, hcall, hdst, hflight⟩)
    · obtain rfl : k = s.calls.length := hcall.symm.trans hnew
      exact Or.inr ⟨rfl, hdst ▸ hdst', hlast⟩

theorem owes_before_startCall {s : QueueCluster P} {i : String} {op : QueueOp P}
    {object : Option (QueueMessage P)} {targets : List String} {k : ℕ} {n : String}
    (howes : Owes cfg (s.startCall cfg i op object targets) k n) :
    Owes cfg s k n ∨ k = s.calls.length ∧ n ∈ targets := by
  have hr : Resumed cfg (s.addCall ⟨i, op, object, .sending s.packets.length targets⟩)
      s.calls.length ⟨i, op, object, .sending s.packets.length targets⟩ targets none
      (s.startCall cfg i op object targets) := resumed ..
  rcases hr.owes_before howes with hadd | ⟨hk, hn, -⟩
  · have hcalls : (s.addCall ⟨i, op, object, .sending s.packets.length targets⟩).calls =
        s.calls ++ [⟨i, op, object, .sending s.packets.length targets⟩] := rfl
    have hadd := owes_of_append (C := (· ∈ targets)) hcalls (fun _ hp => Or.inl hp)
      (fun _ hn => hn) hadd
    exact hadd.imp id fun ⟨hk, hn, _⟩ => ⟨hk, hn⟩
  · exact Or.inr ⟨hk, hn⟩

theorem owes_before_store {s : QueueCluster P} {i : String} {message : QueueMessage P} {k : ℕ}
    {n : String} (howes : Owes cfg (s.store cfg i message) k n) : Owes cfg s k n := by
  rcases howes with ⟨c', hc', hn, hv⟩ | hpacket
  · have hmap : (s.calls[k]?).map (s.detach i message.id) = some c' :=
      (List.getElem?_map ..).symm.trans hc'
    obtain ⟨c, hc, rfl⟩ := Option.map_eq_some_iff.mp hmap
    refine Or.inl ⟨c, hc, ?_, hv.1, (s.continues_detach i message.id c).node ▸ hv.2⟩
    unfold toVisit at hn ⊢
    rwa [stage_detach] at hn
  · exact Or.inr hpacket

/-- A resumed call owed before what it owes now. -/
theorem Resumed.owes_before_sending {s s' : QueueCluster P} {k k' j : ℕ} {call : QueueCall P}
    {rest : List String} {response : Option (List (QueueMessage P))}
    (h : Resumed cfg s k call rest response s') (hk : s.calls[k]? = some call)
    (hstage : call.stage = .sending j rest) {n : String} (howes : Owes cfg s' k' n) :
    Owes cfg s k' n := by
  rcases h.owes_before howes with hold | ⟨rfl, hn, hv⟩
  · exact hold
  · refine Or.inl ⟨call, hk, ?_, hv⟩
    unfold toVisit
    rwa [hstage]

/-- What a `publish` owes, it owes to the nodes it started with. -/
theorem owes_before {s s' : QueueCluster P} {a : QueueAction P} (h : Stepped cfg s a s') {k : ℕ}
    {n : String} (howes : Owes cfg s' k n) :
    Owes cfg s k n ∨ k = s.calls.length ∧ ∀ c', s'.calls[k]? = some c' →
      ∀ message, c'.op = .publish message → ∃ targets,
        (s.nodes c'.node).targetNodes cfg message.id = some targets ∧ n ∈ targets := by
  have hstarted : ∀ {t : QueueCluster P} {i op object targets},
      t.calls.length = s.calls.length →
      (∀ message, op = .publish message →
        (s.nodes i).targetNodes cfg message.id = some targets) → n ∈ targets →
      ∀ c', (t.startCall cfg i op object targets).calls[s.calls.length]? = some c' →
        ∀ message, c'.op = .publish message →
        ∃ targets, (s.nodes c'.node).targetNodes cfg message.id = some targets ∧ n ∈ targets := by
    intro t i op object targets hlen ht hn c' hc' message hop
    obtain ⟨stage, hcalls, -⟩ := t.calls_startCall cfg i op object targets
    rw [hcalls, ← hlen, List.getElem?_concat_length] at hc'
    obtain rfl := Option.some.inj hc'
    exact ⟨targets, ht message hop, hn⟩
  have happended : ∀ {c : QueueCall P}, s'.calls = s.calls ++ [c] →
      (∀ p ∈ s'.packets, p ∈ s.packets ∨ p.call = s.calls.length) →
      (∀ message, c.op ≠ .publish message) →
      Owes cfg s k n ∨ k = s.calls.length ∧ ∀ c', s'.calls[k]? = some c' →
        ∀ message, c'.op = .publish message → ∃ targets,
          (s.nodes c'.node).targetNodes cfg message.id = some targets ∧ n ∈ targets := by
    intro c hcalls hpackets hop
    rcases owes_of_append (C := fun _ => True) hcalls
      (fun p hp => (hpackets p hp).imp id fun hp => ⟨hp, trivial⟩) (fun _ _ => trivial) howes with
      hold | ⟨hk, -, hc⟩
    · exact Or.inl hold
    · refine Or.inr ⟨hk, fun c' hc' message hpublish => ?_⟩
      obtain rfl := Option.some.inj (hc.symm.trans hc')
      exact absurd hpublish (hop message)
  cases h with
  | membership => exact Or.inl howes
  | publishHere hi ht hin =>
    rcases owes_before_startCall howes with hold | ⟨hk, hn⟩
    · exact Or.inl (owes_before_store hold)
    · obtain rfl : k = s.calls.length := hk.trans (List.length_map _)
      exact Or.inr ⟨rfl, hstarted (List.length_map _) (fun message h => by cases h; exact ht) hn⟩
  | publishAway hi ht hout =>
    rcases owes_before_startCall howes with hold | ⟨rfl, hn⟩
    · exact Or.inl hold
    · exact Or.inr ⟨rfl, hstarted rfl (fun message h => by cases h; exact ht) hn⟩
  | consumeHere =>
    exact happended rfl (fun _ hp => Or.inl hp) fun _ h => by cases h
  | @consumeAway i queueName nodeId limit now =>
    refine happended (c := ⟨i, .consume queueName limit, none, .sending s.packets.length []⟩)
      (set_concat_length ..) (fun p hp => ?_) fun _ h => by cases h
    rcases List.mem_append.mp hp with hp | hp
    · exact Or.inl hp
    · exact Or.inr (List.mem_singleton.mp hp ▸ rfl)
  | consumeNowhere =>
    exact happended rfl (fun _ hp => Or.inl hp) fun _ h => by cases h
  | ackUnknown =>
    exact happended rfl (fun _ hp => Or.inl hp) fun _ h => by cases h
  | ackHere =>
    rcases owes_before_startCall howes with hold | ⟨rfl, hn⟩
    · exact Or.inl hold
    · exact Or.inr ⟨rfl, hstarted rfl (fun message h => by cases h) hn⟩
  | ackAway =>
    rcases owes_before_startCall howes with hold | ⟨rfl, hn⟩
    · exact Or.inl hold
    · exact Or.inr ⟨rfl, hstarted rfl (fun message h => by cases h) hn⟩
  | redeliver => exact Or.inl howes
  | @deliver j now p hj hstage =>
    rcases howes with hrest | ⟨q, hq, hcall, hdst, hflight⟩
    · exact Or.inl (Or.inl hrest)
    · rcases List.mem_or_eq_of_mem_set hq with hq | rfl
      · exact Or.inl (Or.inr ⟨q, hq, hcall, hdst, hflight⟩)
      · cases hflight
  | reply hk hstage => exact Or.inl ((resumed ..).owes_before_sending hk hstage howes)
  | noReply hk hstage => exact Or.inl ((resumed ..).owes_before_sending hk hstage howes)

/-! ## Results -/

/-- Calls return what they are to return, and an `ack` may answer False. -/
def Answers (s : QueueCluster P) : Prop :=
  ∀ c ∈ s.calls, ∀ result, c.stage = .returned result →
    result = .acked false ∨ (∃ response, result = Returns c.op response)

theorem Answers.startCall {s : QueueCluster P} {i : String} {op : QueueOp P}
    {object : Option (QueueMessage P)} {targets : List String} (ha : Answers s) :
    Answers (s.startCall cfg i op object targets) := by
  obtain ⟨stage, hcalls, -, hresult⟩ := s.calls_startCall cfg i op object targets
  intro c hc result hstage
  rw [hcalls] at hc
  rcases List.mem_append.mp hc with hc | hc
  · exact ha c hc result hstage
  · obtain rfl := List.mem_singleton.mp hc
    exact Or.inr (hresult result hstage)

theorem Answers.addCall {s : QueueCluster P} (ha : Answers s) {call : QueueCall P}
    (hcall : ∀ result, call.stage = .returned result →
      result = .acked false ∨ ∃ response, result = Returns call.op response) :
    Answers (s.addCall call) := by
  intro c hc result hstage
  rcases List.mem_append.mp hc with hc | hc
  · exact ha c hc result hstage
  · obtain rfl := List.mem_singleton.mp hc
    exact hcall result hstage

theorem Answers.goesOn {s s' : QueueCluster P} (ha : Answers s) {k : ℕ} {call : QueueCall P}
    {rest : List String} {response : Option (List (QueueMessage P))}
    (h : Resumed cfg s k call rest response s') : Answers s' := by
  obtain ⟨stage, hcalls, -, hresult⟩ := h.calls
  intro c hc result hstage
  rw [hcalls] at hc
  rcases List.mem_or_eq_of_mem_set hc with hc | rfl
  · exact ha c hc result hstage
  · exact Or.inr (hresult result hstage)

theorem Answers.step {s s' : QueueCluster P} {a : QueueAction P} (ha : Answers s)
    (h : Stepped cfg s a s') : Answers s' := by
  cases h with
  | membership => exact ha
  | publishHere =>
    refine Answers.startCall fun c hc result hstage => ?_
    obtain ⟨old, hold, rfl⟩ := List.mem_map.mp hc
    rw [stage_detach] at hstage
    rw [(s.continues_detach _ _ old).op]
    exact ha old hold result hstage
  | publishAway => exact ha.startCall
  | consumeHere =>
    refine Answers.addCall ha fun result hstage => Or.inr ?_
    cases hstage
    exact ⟨some _, rfl⟩
  | @consumeAway i queueName nodeId limit now =>
    intro c hc result hstage
    rcases List.mem_or_eq_of_mem_set hc with hc | rfl
    · exact ha.addCall (fun _ h => by cases h) c hc result hstage
    · cases hstage
  | consumeNowhere =>
    refine ha.addCall fun result hstage => Or.inr ?_
    cases hstage
    exact ⟨none, rfl⟩
  | ackUnknown =>
    refine ha.addCall fun result hstage => Or.inl ?_
    cases hstage
    rfl
  | ackHere => exact Answers.startCall ha
  | ackAway => exact ha.startCall
  | redeliver => exact ha
  | deliver => exact ha
  | reply => exact ha.goesOn (resumed ..)
  | noReply => exact ha.goesOn (resumed ..)

/-- A call returns at the latest when it has waited in vain for every node before it. -/
theorem returns_of_sending {s : QueueCluster P} {k j : ℕ} {c : QueueCall P} {rest : List String}
    (hk : s.calls[k]? = some c) (hstage : c.stage = .sending j rest) :
    ∃ n s' c', run cfg s (List.replicate n (.noReply k)) = some s' ∧
      s'.calls[k]? = some c' ∧ c'.stage = .returned (Returns c.op none) := by
  induction hlen : rest.length using Nat.strong_induction_on generalizing s c j rest with
  | _ len ih =>
    have hlt : k < s.calls.length := (List.getElem?_eq_some_iff.mp hk).1
    have hstep : s.step cfg (.noReply k) = some (s.resume cfg k c rest none) := by
      simp only [step, hk, hstage]
    have hr : Resumed cfg s k c rest none (s.resume cfg k c rest none) := resumed ..
    generalize s.resume cfg k c rest none = s₁ at hr hstep
    cases hr with
    | returns =>
      have hk' : (s.setStage k c (.returned (Returns c.op none))).calls[k]? =
          some { c with stage := .returned (Returns c.op none) } := List.getElem?_set_self hlt
      refine ⟨1, _, _, ?_, hk', rfl⟩
      show (s.step cfg (.noReply k)).bind _ = _
      rw [hstep]
      rfl
    | @sends nodeId rest' request hask hv hmem hrest hsub hshort =>
      have hk' : (s.send k c nodeId request rest').calls[k]? =
          some { c with stage := .sending s.packets.length rest' } := List.getElem?_set_self hlt
      obtain ⟨n, s', c', hrun, hc', hstage'⟩ := ih rest'.length (hlen ▸ hshort) hk' rfl rfl
      refine ⟨n + 1, s', c', ?_, hc', hstage'⟩
      show (s.step cfg (.noReply k)).bind _ = _
      rw [hstep]
      exact hrun

end Pynchronize.QueueCluster
