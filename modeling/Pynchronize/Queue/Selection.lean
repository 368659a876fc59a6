import Pynchronize.Queue.Crash

/-!
# What `get_pending` selects

`getPending_eq`: for every limit, the first pending messages of the queue in its
order, and at least one where there is one: `break` stands after the append. So
a limit of 0, which a client may send, gives a message too many
(`getPending_selects_iff`), and any other gives what it asks for.
-/

namespace Pynchronize.MessageStore

variable {P : Type*}

/-! ## The order of a queue -/

/-- The ids that the operations add to a queue. -/
def addedIds (queueName : String) (ops : List (StoreOp P)) : List String :=
  ops.filterMap fun
    | .add message => if message.queueName = queueName then some message.id else none
    | _ => none

/-- A queue has its ids in the order in which they were added, and keeps all. -/
theorem queue_foldl_apply (hash : String → ℕ) (queueName : String) (ops : List (StoreOp P))
    (s : MessageStore P) : (ops.foldl (OwingStore.apply hash) s).queue queueName =
      s.queue queueName ++ addedIds queueName ops := by
  induction ops generalizing s with
  | nil => exact (List.append_nil _).symm
  | cons o ops ih =>
    rw [List.foldl_cons, ih]
    cases o with
    | add message =>
      show (s.add hash message).queue queueName ++ _ = _
      rw [queue_add]
      by_cases hq : message.queueName = queueName
      · simp [addedIds, hq]
      · simp [addedIds, hq]
    | ack messageId =>
      show (s.edit hash _ messageId).queue queueName ++ _ = _
      rw [queue_edit]
      rfl
    | nack messageId now =>
      show (s.edit hash _ messageId).queue queueName ++ _ = _
      rw [queue_edit]
      rfl

/-! ## The messages that are selected -/

/-- The loop stops after the first pending message for every limit up to 1. -/
theorem collectPending_le_one (s : MessageStore P) {limit : ℤ} (h : limit ≤ 1)
    (ids : List String) : s.collectPending limit ids [] = s.collectPending 1 ids [] := by
  induction ids with
  | nil => rfl
  | cons msgId rest ih =>
    unfold collectPending
    cases s.messages.get? msgId with
    | none => exact ih
    | some msg =>
      cases hacked : msg.acked with
      | true => simpa [hacked] using ih
      | false => simp [hacked, h]

theorem getPending_eq (s : MessageStore P) (queueName : String) (limit : ℤ) :
    s.getPending queueName limit = (s.pending queueName).take (max 1 limit.toNat) := by
  by_cases hlimit : limit ≤ 1
  · have hmax : max 1 limit.toNat = 1 := by omega
    rw [hmax]
    exact (s.collectPending_le_one hlimit _).trans (s.getPending_of_pos queueName Int.one_pos)
  · have hmax : max 1 limit.toNat = limit.toNat := by omega
    rw [hmax]
    exact s.getPending_of_pos queueName (by omega)

theorem pending_eq_nil_iff (s : MessageStore P) (queueName : String) :
    s.pending queueName = [] ↔ ∀ id ∈ s.queue queueName, s.pendingId id = false := by
  rw [← List.length_eq_zero_iff, length_pending]
  unfold getQueueSize
  rw [List.length_eq_zero_iff, List.filter_eq_nil_iff]
  simp only [Bool.not_eq_true]

/-- **Selection.** `get_pending` gives as many of the pending messages as it was
asked for, exactly when it was asked for one or there is none to give. -/
theorem getPending_selects_iff (hash : String → ℕ) (s : MessageStore P) (queueName : String)
    {limit : ℤ} (hlimit : 0 ≤ limit) :
    (∀ ops, (ops.foldl (OwingStore.apply hash) s).queue queueName =
      s.queue queueName ++ addedIds queueName ops) ∧
    (s.getPending queueName limit =
        (s.pending queueName).take (min limit.toNat (s.getQueueSize queueName)) ↔
      0 < limit ∨ ∀ id ∈ s.queue queueName, s.pendingId id = false) := by
  refine ⟨fun ops => queue_foldl_apply hash queueName ops s, ?_⟩
  rw [getPending_eq, ← length_pending, ← pending_eq_nil_iff]
  constructor
  · intro h
    by_cases hpos : 0 < limit
    · exact Or.inl hpos
    · -- nothing was asked for, and the first pending message is given
      have hzero : limit = 0 := by omega
      subst hzero
      exact Or.inr (by simpa using h)
  · rintro (hpos | hnil)
    · have hmax : max 1 limit.toNat = limit.toNat := by omega
      rw [hmax]
      exact List.take_eq_take_min
    · rw [hnil, List.take_nil, List.take_nil]

/-- Of four messages one is acked and one belongs to another queue. -/
def mixedOps : List (StoreOp ℕ) :=
  [.add (OwingStore.job "m1"), .add (OwingStore.mail "m2"), .add (OwingStore.job "m3"),
    .ack "m1", .add (OwingStore.job "m4")]

theorem getPending_selects_iff_mixedOps :
    let s := mixedOps.foldl (OwingStore.apply String.length) {}
    s.queue "jobs" = ["m1", "m3", "m4"] ∧
      s.getPending "jobs" 1 = [OwingStore.job "m3"] ∧
      s.getPending "jobs" 1 = (s.pending "jobs").take (min 1 (s.getQueueSize "jobs")) := by
  have hone : (0 : ℤ) ≤ 1 := by decide
  refine ⟨?_, by decide, ?_⟩
  · exact (getPending_selects_iff String.length {} "jobs" hone).1 mixedOps
  · exact (getPending_selects_iff String.length _ "jobs" hone).2.mpr (Or.inl (by decide))

/-- A client that asks for no message gets one. -/
theorem getPending_zero_of_pending :
    ¬ ∀ (s : MessageStore ℕ) (queueName : String) (limit : ℤ), 0 ≤ limit →
      s.getPending queueName limit =
        (s.pending queueName).take (min limit.toNat (s.getQueueSize queueName)) := by
  intro hclaim
  have h := hclaim (OwingStore.apply String.length {} (.add (OwingStore.job "m1"))) "jobs" 0
    (by decide)
  revert h
  decide

end Pynchronize.MessageStore
