import Mathlib.Algebra.Order.Ring.Nat
import Pynchronize.Lib.Transition
import Pynchronize.Queue.Persistence

/-!
# What a QueueNode finds after a restart

One QueueNode with its directory. Which messages are its own and which queues
it serves is decided by the ring and comes with each operation. Handing
messages out counts the attempts in the store only, so the file of the queue
falls behind until something saves the queue: `behind` keeps record of it, and
`restart_reproduces_iff` says that nothing else makes a difference.
-/

namespace Pynchronize

open Lib

inductive NodeAction (P : Type*)
  /-- `targeted`: the node is one of `target_nodes`. -/
  | publish (targeted : Bool) (queueName : String) (payload : P) (messageId : String) (now : ℚ)
  | handlePublish (message : QueueMessage P)
  /-- `responsible`: the node is the one that serves the queue. -/
  | consume (responsible : Bool) (queueName : String) (limit : ℤ) (now : ℚ)
  | handleConsume (queueName : String) (limit : ℤ) (now : ℚ)
  /-- `targeted`: the node is one of `responsible_nodes`. -/
  | ack (targeted : Bool) (messageId : String)
  | handleAck (messageId : String)
  | nack (messageId : String) (now : ℚ)
  /-- A new process over the same directory, which `os.listdir` lists in this order. -/
  | restart (listing : List ℕ)

/-- A QueueNode, and for each queue whether it was handed out, or its file taken by another queue,
    since it was saved last. -/
structure RecordedNode (P : Type*) where
  node : QueueNode P
  behind : String → Bool

variable {P : Type*}

namespace RecordedNode

/-- The queue that an action saves. -/
def savedQueue (n : QueueNode P) : NodeAction P → Option String
  | .publish targeted queueName .. => if targeted then some queueName else none
  | .handlePublish message =>
    match n.store.get message.id with
    | some _ => none
    | none => some message.queueName
  | .ack targeted messageId =>
    if targeted then (n.store.get messageId).map QueueMessage.queueName else none
  | .handleAck messageId => (n.store.get messageId).map QueueMessage.queueName
  | .nack messageId _ => (n.store.get messageId).map QueueMessage.queueName
  | _ => none

/-- The queue whose messages an action hands out. -/
def handedOutQueue : NodeAction P → Option String
  | .consume responsible queueName .. => if responsible then some queueName else none
  | .handleConsume queueName .. => some queueName
  | _ => none

/-- A save makes the file of its queue good, and takes it from a queue of the same hash. -/
def saved (hash : String → ℕ) (behind : String → Bool) (queueName : String) : String → Bool :=
  fun other => other ≠ queueName && (behind other || hash other = hash queueName)

def nodeStep (cfg : QueueConfig) (n : QueueNode P) : NodeAction P → QueueNode P
  | .publish targeted queueName payload messageId now =>
    if targeted then
      { n with
        store := n.store.add cfg.hash
          { id := messageId, queueName := queueName, payload := payload, createdAt := now } }
    else n
  | .handlePublish message => n.handlePublish cfg message
  | .consume responsible queueName limit now =>
    if responsible then (n.handleConsume now queueName limit).1 else n
  | .handleConsume queueName limit now => (n.handleConsume now queueName limit).1
  | .ack targeted messageId => if targeted then n.handleAck cfg messageId else n
  | .handleAck messageId => n.handleAck cfg messageId
  | .nack messageId now =>
    { n with
      store := n.store.nack cfg.hash now messageId
      inFlight := n.inFlight.erase messageId }
  | .restart listing =>
    { n with store := MessageStore.load n.store.files listing, inFlight := Dict.empty }

def behindStep (cfg : QueueConfig) (x : RecordedNode P) (a : NodeAction P) : String → Bool :=
  match a with
  | .restart _ => fun _ => false
  | _ =>
    match savedQueue x.node a with
    | some queueName => saved cfg.hash x.behind queueName
    | none =>
      match handedOutQueue a with
      | some queueName => Function.update x.behind queueName true
      | none => x.behind

/-- A listing has each file of the directory once. -/
def step (cfg : QueueConfig) (x : RecordedNode P) (a : NodeAction P) : Option (RecordedNode P) :=
  match a with
  | .restart listing =>
    if listing.Perm x.node.store.files.keys then
      some ⟨nodeStep cfg x.node a, x.behindStep cfg a⟩
    else none
  | _ => some ⟨nodeStep cfg x.node a, x.behindStep cfg a⟩

/-- A node that starts over an empty directory. -/
def start (cfg : QueueConfig) (clock : String → ℚ) (nodeId : String) : RecordedNode P :=
  ⟨QueueNode.boot cfg clock nodeId, fun _ => false⟩

def run (cfg : QueueConfig) (x : RecordedNode P) (acts : List (NodeAction P)) :
    Option (RecordedNode P) :=
  Transition.run (step cfg) x acts

/-- A publish comes with an id the store does not know. -/
def freshId (x : RecordedNode P) : NodeAction P → Bool
  | .publish _ _ _ messageId _ => (x.node.store.get messageId).isNone
  | _ => true

/-! ## The invariant -/

/-- A queue that is not behind is in its file as it is; one that is behind has more attempts than
    its file tells of. -/
structure Recorded (hash : String → ℕ) (s : MessageStore P) (behind : String → Bool) : Prop where
  consistent : s.Consistent hash
  current : ∀ queueName, behind queueName = false →
    s.filePending hash queueName = s.pending queueName
  outdated : ∀ queueName, behind queueName = true →
    (s.filePending hash queueName = [] ∧ s.pending queueName = []) ∨
      MessageStore.weight (s.filePending hash queueName) <
        MessageStore.weight (s.pending queueName)

namespace Recorded

open MessageStore

variable {hash : String → ℕ} {s : MessageStore P} {behind : String → Bool}

/-- Saving a queue after a change that concerns no other queue. -/
theorem save (h : Recorded hash s behind) {s' : MessageStore P} (hs' : s'.Consistent hash)
    (hfiles : s'.files = s.files) {queueName : String}
    (hpending : ∀ other, other ≠ queueName → s'.pending other = s.pending other) :
    Recorded hash (s'.saveQueue hash queueName) (saved hash behind queueName) := by
  have hfile : ∀ other, s'.filePending hash other = s.filePending hash other := by
    intro other
    unfold filePending
    rw [hfiles]
  refine ⟨hs'.saveQueue queueName, ?_, ?_⟩
  · intro other hcurrent
    by_cases hq : other = queueName
    · subst hq
      rw [filePending_saveQueue_self hs', pending_saveQueue]
    · simp only [saved, hq, ne_eq, not_false_eq_true, decide_true, Bool.true_and,
        Bool.or_eq_false_iff, decide_eq_false_iff_not] at hcurrent
      rw [filePending_saveQueue_ne hs' hq, if_neg hcurrent.2, pending_saveQueue, hfile,
        hpending other hq]
      exact h.current other hcurrent.1
  · intro other hbehind
    simp only [saved, ne_eq, Bool.and_eq_true, decide_eq_true_eq, Bool.or_eq_true] at hbehind
    obtain ⟨hq, hwhy⟩ := hbehind
    rw [filePending_saveQueue_ne hs' hq, pending_saveQueue, hpending other hq]
    split
    · by_cases hempty : s.pending other = []
      · exact Or.inl ⟨rfl, hempty⟩
      · exact Or.inr (weight_pos hempty)
    · rename_i hhash
      rw [hfile]
      exact h.outdated other (hwhy.resolve_right hhash)

theorem add (h : Recorded hash s behind) {msg : QueueMessage P} (hfresh : s.get msg.id = none) :
    Recorded hash (s.add hash msg) (saved hash behind msg.queueName) := by
  rw [add_eq]
  apply h.save (h.consistent.putNew hfresh)
  · rfl
  · intro other hne
    exact h.consistent.pending_putNew_ne hfresh hne

/-- `ack` and `nack`. -/
theorem edit (h : Recorded hash s behind) {f : QueueMessage P → QueueMessage P}
    (hid : ∀ msg, (f msg).id = msg.id) (hqueue : ∀ msg, (f msg).queueName = msg.queueName)
    (messageId : String) :
    Recorded hash (s.edit hash f messageId)
      (match (s.get messageId).map QueueMessage.queueName with
      | some queueName => saved hash behind queueName
      | none => behind) := by
  cases hget : s.get messageId with
  | none =>
    have hget' : s.messages.get? messageId = none := hget
    rw [MessageStore.edit, hget']
    exact h
  | some msg =>
    rw [h.consistent.edit_eq hid hget]
    apply h.save (h.consistent.putChanged hid hqueue hget)
    · rfl
    · intro other hne
      exact h.consistent.pending_putChanged_ne hid hqueue hget hne

/-! ### Handing out -/

theorem get_markDelivered (now : ℚ) (n : QueueNode P) (messageId id : String) :
    (n.markDelivered now messageId).store.get id =
      if messageId = id then
        (n.store.get id).map fun msg =>
          { msg with attempts := msg.attempts + 1, lastAttempt := now }
      else n.store.get id := by
  unfold QueueNode.markDelivered
  cases hget : n.store.get messageId with
  | none =>
    dsimp only
    split
    · rename_i heq
      rw [← heq, hget]
      rfl
    · rfl
  | some msg =>
    show (n.store.messages.set messageId _).get? id = _
    rw [Dict.get?_set]
    split
    · rename_i heq
      rw [← heq, hget]
      rfl
    · rfl

theorem files_markDelivered (now : ℚ) (n : QueueNode P) (messageId : String) :
    (n.markDelivered now messageId).store.files = n.store.files := by
  unfold QueueNode.markDelivered
  split <;> rfl

/-- An attempt more is counted on the message, if it is pending. -/
theorem tries_markDelivered (now : ℚ) (n : QueueNode P) (messageId id : String) :
    n.store.tries id ≤ (n.markDelivered now messageId).store.tries id ∧
      (messageId = id → n.store.tries id ≠ 0 →
        n.store.tries id < (n.markDelivered now messageId).store.tries id) := by
  unfold tries
  rw [get_markDelivered]
  by_cases heq : messageId = id
  · rw [if_pos heq]
    cases hget : n.store.get id with
    | none => simp
    | some msg => cases hacked : msg.acked <;> simp [hacked]
  · rw [if_neg heq]
    exact ⟨le_rfl, fun h => absurd h heq⟩

theorem foldl_markDelivered_spec (now : ℚ) (ids : List String) (n : QueueNode P) :
    (ids.foldl (QueueNode.markDelivered now) n).store.files = n.store.files ∧
      (∀ id, id ∉ ids →
        (ids.foldl (QueueNode.markDelivered now) n).store.get id = n.store.get id) ∧
      (∀ id, n.store.tries id ≤
        (ids.foldl (QueueNode.markDelivered now) n).store.tries id) ∧
      ∀ id ∈ ids, n.store.tries id ≠ 0 →
        n.store.tries id < (ids.foldl (QueueNode.markDelivered now) n).store.tries id := by
  induction ids generalizing n with
  | nil => simp
  | cons first ids ih =>
    obtain ⟨hfiles, hget, hle, hlt⟩ := ih (n.markDelivered now first)
    rw [List.foldl_cons]
    refine ⟨hfiles.trans (files_markDelivered ..), ?_, ?_, ?_⟩
    · intro id hid
      rw [List.mem_cons, not_or] at hid
      rw [hget id hid.2, get_markDelivered, if_neg (Ne.symm hid.1)]
    · intro id
      exact (tries_markDelivered now n first id).1.trans (hle id)
    · intro id hid hpos
      have hstep := tries_markDelivered now n first id
      by_cases hfirst : first = id
      · exact (hstep.2 hfirst hpos).trans_le (hle id)
      · have hin : id ∈ ids := (List.mem_cons.mp hid).resolve_left (Ne.symm hfirst)
        exact hstep.1.trans_lt (hlt id hin (by omega))

/-- What is handed out is in its queue and pending. -/
theorem mem_getPending_ids (hs : s.Consistent hash) {queueName : String} {limit : ℤ} {id : String}
    (hid : id ∈ (s.getPending queueName limit).map QueueMessage.id) :
    id ∈ s.queue queueName ∧ s.tries id ≠ 0 := by
  obtain ⟨msg, hmsg, rfl⟩ := List.mem_map.mp hid
  obtain ⟨id, hin, hfound, hacked⟩ := mem_getPending hmsg
  have hkey := hs.keyed id msg hfound
  rw [hkey]
  refine ⟨hin, ?_⟩
  simp [tries, hfound, hacked]

/-- Handing out changes nothing of what other queues have pending. -/
theorem pending_handleConsume_ne {n : QueueNode P} (hs : n.store.Consistent hash) (now : ℚ)
    {queueName other : String} (hne : other ≠ queueName) (limit : ℤ) :
    (n.handleConsume now queueName limit).1.store.pending other = n.store.pending other := by
  have hget := (foldl_markDelivered_spec now
    ((n.store.getPending queueName limit).map QueueMessage.id) n).2.1
  apply pending_congr
  · exact (QueueNode.retains_handleConsume now n queueName limit).queue other
  · intro id hid
    apply hget
    intro hdelivered
    obtain ⟨msg, hmsg, hq⟩ := hs.listed other id hid
    obtain ⟨msg', hmsg', hq'⟩ := hs.listed queueName id (mem_getPending_ids hs hdelivered).1
    rw [hmsg] at hmsg'
    cases hmsg'
    exact hne (hq.symm.trans hq')

/-- Handing out counts an attempt on something, if anything is pending. -/
theorem weight_handleConsume {n : QueueNode P} (hs : n.store.Consistent hash) (now : ℚ)
    {queueName : String} (limit : ℤ) (hsome : n.store.pending queueName ≠ []) :
    weight (n.store.pending queueName) <
      weight ((n.handleConsume now queueName limit).1.store.pending queueName) := by
  obtain ⟨-, -, hle, hlt⟩ := foldl_markDelivered_spec now
    ((n.store.getPending queueName limit).map QueueMessage.id) n
  rw [weight_pending, weight_pending,
    (QueueNode.retains_handleConsume now n queueName limit).queue]
  obtain ⟨msg, hmsg⟩ := List.exists_mem_of_ne_nil _ (getPending_ne_nil limit hsome)
  have hid := List.mem_map_of_mem (f := QueueMessage.id) hmsg
  obtain ⟨hin, htries⟩ := mem_getPending_ids hs hid
  apply List.sum_lt_sum
  · intro id _
    exact hle id
  · exact ⟨msg.id, hin, hlt _ hid htries⟩

theorem pending_handleConsume_nil {n : QueueNode P} (now : ℚ) {queueName : String} (limit : ℤ)
    (hempty : n.store.pending queueName = []) :
    (n.handleConsume now queueName limit).1.store.pending queueName = [] := by
  have hnothing : n.store.getPending queueName limit = [] := by
    by_contra hsome
    obtain ⟨msg, hmsg⟩ := List.exists_mem_of_ne_nil _ hsome
    have hmem := mem_pending.mpr (mem_getPending hmsg)
    rw [hempty] at hmem
    cases hmem
  rw [QueueNode.handleConsume, hnothing]
  exact hempty

/-- A file is empty with its queue, or at most as far as its queue. -/
theorem lags (h : Recorded hash s behind) (queueName : String) :
    (s.filePending hash queueName = [] ∧ s.pending queueName = []) ∨
      weight (s.filePending hash queueName) ≤ weight (s.pending queueName) := by
  cases hb : behind queueName with
  | false => exact Or.inr (h.current queueName hb ▸ le_rfl)
  | true => exact (h.outdated queueName hb).imp_right le_of_lt

theorem handleConsume {n : QueueNode P} (h : Recorded hash n.store behind) (now : ℚ)
    (queueName : String) (limit : ℤ) :
    Recorded hash (n.handleConsume now queueName limit).1.store
      (Function.update behind queueName true) := by
  have hretains := QueueNode.retains_handleConsume now n queueName limit
  have hfiles : (n.handleConsume now queueName limit).1.store.files = n.store.files :=
    (foldl_markDelivered_spec now _ n).1
  have hfile : ∀ other, (n.handleConsume now queueName limit).1.store.filePending hash other =
      n.store.filePending hash other := by
    intro other
    unfold filePending
    rw [hfiles]
  refine ⟨h.consistent.of_retains hretains hfiles, ?_, ?_⟩
  · intro other hcurrent
    have hne : other ≠ queueName := by
      rintro rfl
      simp at hcurrent
    rw [Function.update_of_ne hne] at hcurrent
    rw [hfile, pending_handleConsume_ne h.consistent now hne limit]
    exact h.current other hcurrent
  · intro other hbehind
    rw [hfile]
    by_cases hne : other = queueName
    · subst hne
      by_cases hempty : n.store.pending other = []
      · refine Or.inl ⟨?_, pending_handleConsume_nil now limit hempty⟩
        rcases h.lags other with ⟨hnil, -⟩ | hle
        · exact hnil
        · by_contra hsome
          have hpos := weight_pos hsome
          rw [hempty] at hle
          exact absurd (hpos.trans_le hle) (lt_irrefl _)
      · have hless := weight_handleConsume h.consistent now limit hempty
        rcases h.lags other with ⟨-, hnil⟩ | hle
        · exact absurd hnil hempty
        · exact Or.inr (hle.trans_lt hless)
    · rw [Function.update_of_ne hne] at hbehind
      rw [pending_handleConsume_ne h.consistent now hne limit]
      exact h.outdated other hbehind

theorem load (h : Recorded hash s behind) {listing : List ℕ}
    (hlisting : listing.Perm s.files.keys) :
    Recorded hash (MessageStore.load s.files listing) fun _ => false := by
  refine ⟨.load h.consistent.filed hlisting, ?_, ?_⟩
  · intro queueName _
    rw [pending_load h.consistent.filed hlisting, filePending, files_load]
    rfl
  · intro queueName hbehind
    cases hbehind

end Recorded

/-! ## Runs -/

open MessageStore in
theorem recorded_nodeStep {cfg : QueueConfig} {x : RecordedNode P}
    (h : Recorded cfg.hash x.node.store x.behind) {a : NodeAction P} (hfresh : freshId x a = true)
    (hlisting : ∀ listing, a = .restart listing → listing.Perm x.node.store.files.keys) :
    Recorded cfg.hash (nodeStep cfg x.node a).store (x.behindStep cfg a) := by
  have hack : ∀ messageId, Recorded cfg.hash (x.node.store.ack cfg.hash messageId).1
      (match (x.node.store.get messageId).map QueueMessage.queueName with
      | some queueName => saved cfg.hash x.behind queueName
      | none => x.behind) :=
    fun messageId => h.edit (f := fun msg => { msg with acked := true }) (fun _ => rfl)
      (fun _ => rfl) messageId
  cases a with
  | publish targeted queueName payload messageId now =>
    cases targeted with
    | false => exact h
    | true =>
      have hnone : x.node.store.get messageId = none := Option.isNone_iff_eq_none.mp hfresh
      have hadd : Recorded cfg.hash (x.node.store.add cfg.hash ⟨messageId, queueName, payload, now,
          0, 0, false⟩) (saved cfg.hash x.behind queueName) := h.add hnone
      exact hadd
  | handlePublish message =>
    simp only [nodeStep, QueueNode.handlePublish, behindStep, savedQueue, handedOutQueue]
    cases hget : x.node.store.get message.id with
    | some _ => exact h
    | none => exact h.add hget
  | consume responsible queueName limit now =>
    cases responsible with
    | false => exact h
    | true => exact h.handleConsume now queueName limit
  | handleConsume queueName limit now => exact h.handleConsume now queueName limit
  | ack targeted messageId =>
    cases targeted with
    | false => exact h
    | true =>
      have hnew := hack messageId
      simp only [nodeStep, behindStep, savedQueue, handedOutQueue, ↓reduceIte]
      cases hq : (x.node.store.get messageId).map QueueMessage.queueName <;>
        · rw [hq] at hnew
          exact hnew
  | handleAck messageId =>
    have hnew := hack messageId
    simp only [nodeStep, behindStep, savedQueue, handedOutQueue]
    cases hq : (x.node.store.get messageId).map QueueMessage.queueName <;>
      · rw [hq] at hnew
        exact hnew
  | nack messageId now =>
    have hnew := h.edit
      (f := fun msg => { msg with attempts := msg.attempts + 1, lastAttempt := now })
      (fun _ => rfl) (fun _ => rfl) messageId
    simp only [nodeStep, behindStep, savedQueue, handedOutQueue]
    cases hq : (x.node.store.get messageId).map QueueMessage.queueName <;>
      · rw [hq] at hnew
        exact hnew
  | restart listing => exact h.load (hlisting listing rfl)

theorem recorded_step {cfg : QueueConfig} {x x' : RecordedNode P}
    (h : Recorded cfg.hash x.node.store x.behind) {a : NodeAction P} (hfresh : freshId x a = true)
    (hs : step cfg x a = some x') : Recorded cfg.hash x'.node.store x'.behind := by
  unfold step at hs
  split at hs
  · rename_i listing
    split at hs
    · rename_i hperm
      cases hs
      apply recorded_nodeStep h hfresh
      intro listing' heq
      cases heq
      exact hperm
    · cases hs
  · rename_i hnot
    cases hs
    apply recorded_nodeStep h hfresh
    intro listing heq
    exact absurd heq (hnot listing)

theorem recorded_run {cfg : QueueConfig} {clock : String → ℚ} {nodeId : String}
    {acts : List (NodeAction P)} {x : RecordedNode P}
    (hrun : run cfg (start cfg clock nodeId) acts = some x)
    (hfresh : Transition.EachStep (step cfg) (fun x a => freshId x a = true)
      (start cfg clock nodeId) acts) : Recorded cfg.hash x.node.store x.behind := by
  refine Transition.run_preserves (I := fun x => Recorded cfg.hash x.node.store x.behind) ?_ ?_
    hfresh hrun
  · intro x a x' hx ha hs
    exact recorded_step hx ha hs
  · refine ⟨.empty, fun _ _ => rfl, ?_⟩
    intro queueName hbehind
    cases hbehind

/-- **Restart reproduces the queue.** After any operations and restarts, a new store over the same
directory has the same messages pending in a queue, with the same fields, exactly if the queue has
been saved since it was handed out last, or has nothing pending. -/
theorem restart_reproduces_iff (cfg : QueueConfig) (clock : String → ℚ) (nodeId : String)
    (acts : List (NodeAction P)) {x : RecordedNode P}
    (hrun : run cfg (start cfg clock nodeId) acts = some x)
    (hfresh : Transition.EachStep (step cfg) (fun x a => freshId x a = true)
      (start cfg clock nodeId) acts)
    {listing : List ℕ} (hlisting : listing.Perm x.node.store.files.keys) (queueName : String) :
    (MessageStore.load x.node.store.files listing).pending queueName =
        x.node.store.pending queueName ↔
      (x.behind queueName = true → x.node.store.pending queueName = []) := by
  have hx := recorded_run hrun hfresh
  rw [MessageStore.pending_load hx.consistent.filed hlisting]
  constructor
  · intro hsame hbehind
    rcases hx.outdated queueName hbehind with ⟨-, hempty⟩ | hless
    · exact hempty
    · rw [hsame] at hless
      exact absurd hless (lt_irrefl _)
  · intro hcondition
    cases hb : x.behind queueName with
    | false => exact hx.current queueName hb
    | true =>
      have hempty := hcondition hb
      rcases hx.outdated queueName hb with ⟨hfile, -⟩ | hless
      · rw [hfile, hempty]
      · rw [hempty] at hless
        exact absurd hless (Nat.not_lt_zero _)

/-- One node whose files are named by the lengths of their queues' names. -/
def oneNode : QueueConfig where
  nodes := ["a"]
  hash := String.length

/-- Two messages of a queue, of which one is consumed before the other is published. -/
def publishTwice : List (NodeAction ℕ) :=
  [.publish true "jobs" 7 "m1" 1, .consume true "jobs" 1 2, .publish true "jobs" 8 "m2" 3,
    .restart [4], .handlePublish ⟨"m3", "mail!", 9, 4, 0, 0, false⟩, .handleAck "m2"]

theorem restart_reproduces_iff_publishTwice :
    ∃ x, run oneNode (start oneNode (fun _ => 0) "a") publishTwice = some x ∧
      x.node.store.pending "jobs" = [⟨"m1", "jobs", 7, 1, 1, 2, false⟩] ∧
      ((MessageStore.load x.node.store.files [5, 4]).pending "jobs" = x.node.store.pending "jobs" ↔
        (x.behind "jobs" = true → x.node.store.pending "jobs" = [])) :=
  ⟨_, rfl, by decide,
    restart_reproduces_iff oneNode (fun _ => 0) "a" publishTwice rfl (by decide) (by decide) "jobs"⟩

/-- The message was handed out once; the file does not know. -/
theorem consumed_then_restarted :
    ∃ x : RecordedNode ℕ, run oneNode (start oneNode (fun _ => 0) "a")
        [.publish true "jobs" 7 "m1" 1, .consume true "jobs" 1 2] = some x ∧
      x.node.store.pending "jobs" = [⟨"m1", "jobs", 7, 1, 1, 2, false⟩] ∧
      (MessageStore.load x.node.store.files x.node.store.files.keys).pending "jobs" =
        [⟨"m1", "jobs", 7, 1, 0, 0, false⟩] :=
  ⟨_, rfl, by decide, by decide⟩

end RecordedNode

end Pynchronize
