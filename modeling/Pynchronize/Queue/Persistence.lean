import Mathlib.Algebra.GroupWithZero.Nat
import Mathlib.Algebra.Order.BigOperators.Group.List
import Pynchronize.Queue.Load
import Pynchronize.Queue.Node

/-!
# A message store and its files

`Consistent` says how the messages, the queues and the files of a store belong
together; every operation and a restart keep it. After `_save_queue` the file of
the queue has what the queue has (`filePending_saveQueue_self`).
-/

namespace Pynchronize

open Lib

variable {P : Type*}

/-! ## The store and its files -/

namespace MessageStore

variable {hash : String → ℕ} {s : MessageStore P}

/-- Messages, queues and files of a store belong together. -/
structure Consistent (hash : String → ℕ) (s : MessageStore P) : Prop where
  keyed : s.Keyed
  filed : s.Filed hash
  listed : ∀ queueName, ∀ id ∈ s.queue queueName,
    ∃ msg, s.get id = some msg ∧ msg.queueName = queueName
  nodup : ∀ queueName, (s.queue queueName).Nodup

/-- `self.messages[message.id] = message`. -/
def put (s : MessageStore P) (msg : QueueMessage P) : MessageStore P :=
  { s with messages := s.messages.set msg.id msg }

/-- `self.queues[message.queue_name].append(message.id)`. -/
def append (s : MessageStore P) (msg : QueueMessage P) : MessageStore P :=
  { s with queues := s.queues.set msg.queueName (s.queue msg.queueName ++ [msg.id]) }

theorem add_eq (hash : String → ℕ) (s : MessageStore P) (msg : QueueMessage P) :
    s.add hash msg = ((s.put msg).append msg).saveQueue hash msg.queueName := rfl

theorem get_put (s : MessageStore P) (msg : QueueMessage P) (id : String) :
    (s.put msg).get id = if msg.id = id then some msg else s.get id :=
  Dict.get?_set s.messages msg.id id msg

theorem queue_append (s : MessageStore P) (msg : QueueMessage P) (queueName : String) :
    (s.append msg).queue queueName =
      if msg.queueName = queueName then s.queue queueName ++ [msg.id] else s.queue queueName :=
  s.queue_appended msg.queueName msg.id queueName

theorem pending_congr {s s' : MessageStore P} {queueName : String}
    (hqueue : s'.queue queueName = s.queue queueName)
    (hget : ∀ id ∈ s.queue queueName, s'.get id = s.get id) :
    s'.pending queueName = s.pending queueName := by
  unfold pending
  rw [hqueue]
  apply List.filterMap_congr
  intro id hid
  exact congrArg (Option.filter _) (hget id hid)

theorem mem_pending {queueName : String} {msg : QueueMessage P} :
    msg ∈ s.pending queueName ↔
      ∃ id ∈ s.queue queueName, s.get id = some msg ∧ msg.acked = false := by
  unfold pending
  rw [List.mem_filterMap]
  constructor
  · rintro ⟨id, hid, hfilter⟩
    obtain ⟨hget, hacked⟩ := Option.filter_eq_some_iff.mp hfilter
    exact ⟨id, hid, hget, by simpa using hacked⟩
  · rintro ⟨id, hid, hget, hacked⟩
    have hget' : s.messages.get? id = some msg := hget
    exact ⟨id, hid, by simp [hget', hacked]⟩

theorem Consistent.empty : (({} : MessageStore P)).Consistent hash where
  keyed _ _ hget := by cases hget
  filed := by constructor <;> intro file msgs hfile <;> cases hfile
  listed _ _ hid := by cases hid
  nodup _ := List.nodup_nil

namespace Consistent

/-- A message may be replaced by one of the same queue. -/
theorem put (h : s.Consistent hash) {msg : QueueMessage P}
    (hsame : ∀ old, s.get msg.id = some old → old.queueName = msg.queueName) :
    (s.put msg).Consistent hash := by
  have hstored : ∀ id old, s.get id = some old →
      ∃ new, (s.put msg).get id = some new ∧ new.queueName = old.queueName := by
    intro id old hold
    rw [get_put]
    split
    · rename_i hid
      subst hid
      exact ⟨msg, rfl, (hsame old hold).symm⟩
    · exact ⟨old, hold, rfl⟩
  refine ⟨?_, ⟨h.filed.hashed, h.filed.nodup, ?_⟩, ?_, h.nodup⟩
  · intro id found hget
    rw [get_put] at hget
    split at hget
    · rename_i hid
      cases hget
      exact hid
    · exact h.keyed id found hget
  · intro file msgs hfile m hm
    obtain ⟨old, hold, hq⟩ := h.filed.stored file msgs hfile m hm
    obtain ⟨new, hnew, hq'⟩ := hstored _ _ hold
    exact ⟨new, hnew, hq'.trans hq⟩
  · intro queueName id hid
    obtain ⟨old, hold, hq⟩ := h.listed queueName id hid
    obtain ⟨new, hnew, hq'⟩ := hstored _ _ hold
    exact ⟨new, hnew, hq'.trans hq⟩

/-- A stored message may be put into its queue once. -/
theorem append (h : s.Consistent hash) {msg : QueueMessage P} (hget : s.get msg.id = some msg)
    (hnew : msg.id ∉ s.queue msg.queueName) : (s.append msg).Consistent hash := by
  refine ⟨h.keyed, ⟨h.filed.hashed, h.filed.nodup, h.filed.stored⟩, ?_, ?_⟩
  · intro queueName id hid
    rw [queue_append] at hid
    split at hid
    · rename_i hq
      rcases List.mem_append.mp hid with hold | hlast
      · exact h.listed queueName id hold
      · obtain rfl := List.mem_singleton.mp hlast
        exact ⟨msg, hget, hq⟩
    · exact h.listed queueName id hid
  · intro queueName
    rw [queue_append]
    split
    · rename_i hq
      subst hq
      rw [List.nodup_append]
      refine ⟨h.nodup _, List.nodup_singleton _, ?_⟩
      intro id hid last hlast heq
      rw [List.mem_singleton.mp hlast] at heq
      exact hnew (heq ▸ hid)
    · exact h.nodup queueName

/-- The messages that `_save_queue` writes. -/
theorem mem_saved (h : s.Consistent hash) {queueName : String} {msg : QueueMessage P}
    (hmsg : msg ∈ (s.queue queueName).filterMap s.messages.get?) :
    s.get msg.id = some msg ∧ msg.queueName = queueName := by
  obtain ⟨id, hid, hget⟩ := List.mem_filterMap.mp hmsg
  obtain ⟨found, hfound, hq⟩ := h.listed queueName id hid
  have hsame : s.get id = some msg := hget
  rw [hfound] at hsame
  cases hsame
  rw [h.keyed id _ hfound]
  exact ⟨hfound, hq⟩

theorem ids_saved (h : s.Consistent hash) (queueName : String) :
    ((s.queue queueName).filterMap s.messages.get?).map QueueMessage.id = s.queue queueName := by
  have hfound : ∀ id ∈ s.queue queueName, ∃ msg, s.get id = some msg ∧ msg.id = id := by
    intro id hid
    obtain ⟨msg, hmsg, -⟩ := h.listed queueName id hid
    exact ⟨msg, hmsg, h.keyed id msg hmsg⟩
  generalize s.queue queueName = ids at hfound ⊢
  induction ids with
  | nil => rfl
  | cons id ids ih =>
    obtain ⟨msg, hget, hid⟩ := hfound id (List.mem_cons_self ..)
    have hget' : s.messages.get? id = some msg := hget
    rw [List.filterMap_cons_some hget', List.map_cons, hid,
      ih fun i hi => hfound i (List.mem_cons_of_mem _ hi)]

theorem saveQueue (h : s.Consistent hash) (queueName : String) :
    (s.saveQueue hash queueName).Consistent hash := by
  have hfiles : ∀ file msgs, (s.saveQueue hash queueName).files.get? file = some msgs →
      (file = hash queueName ∧ msgs = (s.queue queueName).filterMap s.messages.get?) ∨
        s.files.get? file = some msgs := by
    intro file msgs hfile
    have hset : (s.saveQueue hash queueName).files.get? file = _ :=
      Dict.get?_set s.files (hash queueName) file _
    rw [hset] at hfile
    split at hfile
    · rename_i heq
      cases hfile
      exact Or.inl ⟨heq.symm, rfl⟩
    · exact Or.inr hfile
  refine ⟨h.keyed, ⟨?_, ?_, ?_⟩, ?_, ?_⟩
  · intro file msgs hfile msg hmsg
    rcases hfiles file msgs hfile with ⟨rfl, rfl⟩ | hold
    · rw [(h.mem_saved hmsg).2]
    · exact h.filed.hashed file msgs hold msg hmsg
  · intro file msgs hfile
    rcases hfiles file msgs hfile with ⟨rfl, rfl⟩ | hold
    · rw [h.ids_saved]
      exact h.nodup queueName
    · exact h.filed.nodup file msgs hold
  · intro file msgs hfile msg hmsg
    rcases hfiles file msgs hfile with ⟨rfl, rfl⟩ | hold
    · exact ⟨msg, (h.mem_saved hmsg).1, rfl⟩
    · exact h.filed.stored file msgs hold msg hmsg
  · intro other id hid
    rw [queue_saveQueue] at hid
    exact h.listed other id hid
  · intro other
    rw [queue_saveQueue]
    exact h.nodup other

/-- A new message, before its queue is saved. -/
theorem putNew (h : s.Consistent hash) {msg : QueueMessage P} (hfresh : s.get msg.id = none) :
    ((s.put msg).append msg).Consistent hash := by
  have hput : (s.put msg).Consistent hash := by
    apply h.put
    intro old hold
    rw [hfresh] at hold
    cases hold
  have hget : (s.put msg).get msg.id = some msg := by
    rw [get_put, if_pos rfl]
  have hnew : msg.id ∉ (s.put msg).queue msg.queueName := by
    intro hid
    obtain ⟨old, hold, -⟩ := h.listed msg.queueName msg.id hid
    rw [hfresh] at hold
    cases hold
  exact hput.append hget hnew

/-- A changed message, before its queue is saved. -/
theorem edit_eq (h : s.Consistent hash) {f : QueueMessage P → QueueMessage P}
    (hid : ∀ msg, (f msg).id = msg.id) {messageId : String} {msg : QueueMessage P}
    (hget : s.get messageId = some msg) :
    s.edit hash f messageId = (s.put (f msg)).saveQueue hash msg.queueName := by
  have hget' : s.messages.get? messageId = some msg := hget
  have hput : { s with messages := s.messages.set messageId (f msg) } = s.put (f msg) := by
    rw [MessageStore.put, hid, h.keyed messageId msg hget]
  rw [MessageStore.edit, hget', ← hput]

theorem putChanged (h : s.Consistent hash) {f : QueueMessage P → QueueMessage P}
    (hid : ∀ msg, (f msg).id = msg.id) (hqueue : ∀ msg, (f msg).queueName = msg.queueName)
    {messageId : String} {msg : QueueMessage P} (hget : s.get messageId = some msg) :
    (s.put (f msg)).Consistent hash := by
  apply h.put
  intro old hold
  rw [hid, h.keyed messageId msg hget, hget] at hold
  cases hold
  exact (hqueue msg).symm

/-- A change of a message of one queue is no change of another queue. -/
theorem pending_put_ne (h : s.Consistent hash) {msg : QueueMessage P}
    (hsame : ∀ old, s.get msg.id = some old → old.queueName = msg.queueName) {other : String}
    (hne : other ≠ msg.queueName) : (s.put msg).pending other = s.pending other := by
  apply pending_congr
  · rfl
  · intro id hid
    rw [get_put, if_neg]
    rintro rfl
    obtain ⟨old, hold, hq⟩ := h.listed other msg.id hid
    exact hne (hq.symm.trans (hsame old hold))

theorem pending_putNew_ne (h : s.Consistent hash) {msg : QueueMessage P}
    (hfresh : s.get msg.id = none) {other : String} (hne : other ≠ msg.queueName) :
    ((s.put msg).append msg).pending other = s.pending other := by
  have hsame : ∀ old, s.get msg.id = some old → old.queueName = msg.queueName := by
    intro old hold
    rw [hfresh] at hold
    cases hold
  rw [← h.pending_put_ne hsame hne]
  apply pending_congr
  · exact (queue_append ..).trans (if_neg (Ne.symm hne))
  · intro id _
    rfl

theorem pending_putChanged_ne (h : s.Consistent hash) {f : QueueMessage P → QueueMessage P}
    (hid : ∀ msg, (f msg).id = msg.id) (hqueue : ∀ msg, (f msg).queueName = msg.queueName)
    {messageId : String} {msg : QueueMessage P} (hget : s.get messageId = some msg)
    {other : String} (hne : other ≠ msg.queueName) :
    (s.put (f msg)).pending other = s.pending other := by
  apply h.pending_put_ne
  · intro old hold
    rw [hid, h.keyed messageId msg hget, hget] at hold
    cases hold
    exact (hqueue msg).symm
  · rw [hqueue]
    exact hne

/-- Counting attempts in memory leaves the store consistent. -/
theorem of_retains (h : s.Consistent hash) {s' : MessageStore P} (hs : Retains s s')
    (hfiles : s'.files = s.files) : s'.Consistent hash := by
  have hget : ∀ {id msg}, s.get id = some msg →
      ∃ msg', s'.get id = some msg' ∧ msg'.queueName = msg.queueName := by
    intro id msg hid
    obtain ⟨msg', hmsg', hcontent⟩ := hs.get hid
    exact ⟨msg', hmsg', (QueueMessage.content_eq_iff.mp hcontent).2.1⟩
  refine ⟨?_, ⟨hfiles ▸ h.filed.hashed, hfiles ▸ h.filed.nodup, ?_⟩, ?_, ?_⟩
  · intro id msg' hid
    obtain ⟨msg, hmsg, hcontent⟩ := hs.get' hid
    rw [← (QueueMessage.content_eq_iff.mp hcontent).1]
    exact h.keyed id msg hmsg
  · intro file msgs hfile msg hmsg
    rw [hfiles] at hfile
    obtain ⟨old, hold, hq⟩ := h.filed.stored file msgs hfile msg hmsg
    obtain ⟨new, hnew, hq'⟩ := hget hold
    exact ⟨new, hnew, hq'.trans hq⟩
  · intro queueName id hid
    rw [hs.queue] at hid
    obtain ⟨old, hold, hq⟩ := h.listed queueName id hid
    obtain ⟨new, hnew, hq'⟩ := hget hold
    exact ⟨new, hnew, hq'.trans hq⟩
  · intro queueName
    rw [hs.queue]
    exact h.nodup queueName

/-- A loaded store is consistent. -/
theorem load (h : s.Filed hash) {listing : List ℕ} (hlisting : listing.Perm s.files.keys) :
    (MessageStore.load s.files listing).Consistent hash := by
  have hnodup : listing.Nodup := hlisting.nodup_iff.mpr s.files.keys_nodup
  have hids := h.nodup_listed hnodup
  obtain ⟨hfound, hback, hqueue⟩ := foldl_loadMessage_spec s.files hids
  rw [← load_eq] at hfound hback hqueue
  have hmem : ∀ {queueName msg}, msg ∈ unacked queueName (MessageStore.listed s.files listing) →
      msg ∈ MessageStore.listed s.files listing ∧ msg.queueName = queueName := by
    intro queueName msg hmsg
    obtain ⟨hmem, hmatch⟩ := List.mem_filter.mp hmsg
    simp only [decide_eq_true_eq] at hmatch
    exact ⟨hmem, hmatch.1⟩
  refine ⟨fun id msg hget => (hback id msg hget).2, ⟨?_, ?_, ?_⟩, ?_, ?_⟩
  · rw [files_load]
    exact h.hashed
  · rw [files_load]
    exact h.nodup
  · intro file msgs hfile msg hmsg
    rw [files_load] at hfile
    refine ⟨msg, hfound msg (List.mem_flatMap.mpr ⟨file, ?_, ?_⟩), rfl⟩
    · exact hlisting.mem_iff.mpr (Dict.mem_keys_of_get? hfile)
    · rw [hfile]
      exact hmsg
  · intro queueName id hid
    rw [hqueue] at hid
    obtain ⟨msg, hmsg, rfl⟩ := List.mem_map.mp hid
    exact ⟨msg, hfound msg (hmem hmsg).1, (hmem hmsg).2⟩
  · intro queueName
    rw [hqueue]
    exact hids.sublist (List.filter_sublist.map _)

end Consistent

/-! ## The file of a queue after a save -/

theorem files_saveQueue (hash : String → ℕ) (s : MessageStore P) (queueName : String)
    (file : ℕ) : (s.saveQueue hash queueName).files.get? file =
      if hash queueName = file then some ((s.queue queueName).filterMap s.messages.get?)
      else s.files.get? file :=
  Dict.get?_set s.files (hash queueName) file _

theorem pending_saveQueue (hash : String → ℕ) (s : MessageStore P) (queueName other : String) :
    (s.saveQueue hash queueName).pending other = s.pending other :=
  pending_congr (queue_saveQueue ..) fun _ _ => rfl

/-- After a save the file has what the queue has. -/
theorem filePending_saveQueue_self (h : s.Consistent hash) (queueName : String) :
    (s.saveQueue hash queueName).filePending hash queueName = s.pending queueName := by
  unfold filePending unacked pending
  rw [files_saveQueue, if_pos rfl, Option.getD_some, List.filter_filterMap]
  apply List.filterMap_congr
  intro id hid
  obtain ⟨msg, hget, hq⟩ := h.listed queueName id hid
  have hget' : s.messages.get? id = some msg := hget
  simp [hget', hq, Option.filter_some]

/-- A queue whose file is overwritten by another queue has nothing left there. -/
theorem filePending_saveQueue_ne (h : s.Consistent hash) {queueName other : String}
    (hne : other ≠ queueName) :
    (s.saveQueue hash queueName).filePending hash other =
      if hash other = hash queueName then [] else s.filePending hash other := by
  unfold filePending
  rw [files_saveQueue]
  by_cases hhash : hash other = hash queueName
  · rw [if_pos hhash, if_pos hhash.symm]
    apply List.filter_eq_nil_iff.mpr
    intro msg hmsg hmatch
    simp only [decide_eq_true_eq] at hmatch
    exact hne (hmatch.1.symm.trans (h.mem_saved hmsg).2)
  · rw [if_neg hhash, if_neg (Ne.symm hhash)]

/-! ## Attempts -/

/-- The attempts on a message that is pending, and one more for the message. -/
def tries (s : MessageStore P) (id : String) : ℕ :=
  match s.get id with
  | some msg => if msg.acked then 0 else msg.attempts + 1
  | none => 0

/-- The attempts on some messages, and one more for each. -/
def weight (msgs : List (QueueMessage P)) : ℕ :=
  (msgs.map fun msg => msg.attempts + 1).sum

theorem weight_pending (s : MessageStore P) (queueName : String) :
    weight (s.pending queueName) = ((s.queue queueName).map s.tries).sum := by
  unfold pending
  induction s.queue queueName with
  | nil => rfl
  | cons id ids ih =>
    rw [List.map_cons, List.sum_cons, ← ih, tries, get, List.filterMap_cons]
    cases hget : s.messages.get? id with
    | none => simp
    | some msg => cases hacked : msg.acked <;> simp [Option.filter, hacked, weight]

theorem weight_pos {msgs : List (QueueMessage P)} (h : msgs ≠ []) : 0 < weight msgs := by
  cases msgs with
  | nil => exact absurd rfl h
  | cons msg msgs =>
    simp only [weight, List.map_cons, List.sum_cons]
    omega

theorem collectPending_ne_nil {s : MessageStore P} {limit : ℤ} {result : List (QueueMessage P)}
    (h : result ≠ []) (ids : List String) : s.collectPending limit ids result ≠ [] := by
  induction ids generalizing result with
  | nil => exact h
  | cons id ids ih =>
    unfold collectPending
    split
    · split
      · exact ih h
      · dsimp only
        split
        · simp
        · exact ih (by simp)
    · exact ih h

/-- Whatever the limit, something is handed out if there is something. -/
theorem getPending_ne_nil {s : MessageStore P} {queueName : String} (limit : ℤ)
    (h : s.pending queueName ≠ []) : s.getPending queueName limit ≠ [] := by
  unfold getPending
  unfold pending at h
  generalize s.queue queueName = ids at h ⊢
  induction ids with
  | nil => exact absurd rfl h
  | cons id ids ih =>
    unfold collectPending
    cases hget : s.messages.get? id with
    | none =>
      simp only [List.filterMap_cons, hget, Option.filter_none] at h
      exact ih h
    | some msg =>
      cases hacked : msg.acked with
      | true =>
        simp only [List.filterMap_cons, hget, Option.filter_some, hacked, Bool.not_true,
          Bool.false_eq_true, ↓reduceIte] at h
        simpa [hacked] using ih h
      | false =>
        simp only [hacked, Bool.false_eq_true, ↓reduceIte]
        split
        · simp
        · exact collectPending_ne_nil (by simp) ids

end MessageStore

end Pynchronize
