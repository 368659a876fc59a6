import Mathlib.Data.List.Flatten
import Mathlib.Data.List.Induction
import Mathlib.Data.List.Nodup
import Pynchronize.Queue.Store

/-!
# Loading a message store

`_load` reads the files in the order of `os.listdir`, which is arbitrary. Acked
messages become known again, but only the others are put into their queues.
`pending_load` says what a loaded store has pending, whatever the order.
-/

namespace Pynchronize

open Lib

namespace MessageStore

variable {P : Type*}

/-- One message of a file. -/
def loadMessage (s : MessageStore P) (msg : QueueMessage P) : MessageStore P :=
  let s := { s with messages := s.messages.set msg.id msg }
  if msg.acked then s
  else { s with queues := s.queues.set msg.queueName (s.queue msg.queueName ++ [msg.id]) }

/-- A file that cannot be read gives no message, like an empty one. -/
def loadFile (s : MessageStore P) (file : ℕ) : MessageStore P :=
  ((s.files.get? file).getD []).foldl loadMessage s

/-- A new MessageStore over a directory; `listing` is what `os.listdir` answers. -/
def load (files : Dict ℕ (List (QueueMessage P))) (listing : List ℕ) : MessageStore P :=
  listing.foldl loadFile { files := files }

/-- The messages of the files in the order in which they are read. -/
def listed (files : Dict ℕ (List (QueueMessage P))) (listing : List ℕ) : List (QueueMessage P) :=
  listing.flatMap fun file => (files.get? file).getD []

@[simp] theorem files_loadMessage (s : MessageStore P) (msg : QueueMessage P) :
    (s.loadMessage msg).files = s.files := by
  simp only [loadMessage]
  split <;> rfl

@[simp] theorem files_foldl_loadMessage (msgs : List (QueueMessage P)) (s : MessageStore P) :
    (msgs.foldl loadMessage s).files = s.files := by
  induction msgs generalizing s with
  | nil => rfl
  | cons msg msgs ih => simp [ih]

theorem foldl_loadFile (listing : List ℕ) (s : MessageStore P) :
    listing.foldl loadFile s = (listed s.files listing).foldl loadMessage s := by
  induction listing generalizing s with
  | nil => rfl
  | cons file rest ih =>
    have hfiles : (s.loadFile file).files = s.files := files_foldl_loadMessage _ s
    rw [List.foldl_cons, ih, hfiles, listed, listed, List.flatMap_cons, List.foldl_append]
    rfl

theorem load_eq (files : Dict ℕ (List (QueueMessage P))) (listing : List ℕ) :
    load files listing = (listed files listing).foldl loadMessage { files := files } :=
  foldl_loadFile listing { files := files }

@[simp] theorem files_load (files : Dict ℕ (List (QueueMessage P))) (listing : List ℕ) :
    (load files listing).files = files := by
  rw [load_eq]
  exact files_foldl_loadMessage _ _

/-! ## What is loaded -/

theorem get_loadMessage (s : MessageStore P) (msg : QueueMessage P) (id : String) :
    (s.loadMessage msg).get id = if msg.id = id then some msg else s.get id := by
  have hset := Dict.get?_set s.messages msg.id id msg
  simp only [loadMessage]
  split <;> exact hset

theorem queue_loadMessage (s : MessageStore P) (msg : QueueMessage P) (queueName : String) :
    (s.loadMessage msg).queue queueName =
      if msg.queueName = queueName ∧ msg.acked = false then s.queue queueName ++ [msg.id]
      else s.queue queueName := by
  cases hacked : msg.acked with
  | true =>
    simp only [loadMessage, hacked, reduceCtorEq, and_false, ↓reduceIte]
    rfl
  | false =>
    simp only [loadMessage, hacked, Bool.false_eq_true, and_true, ↓reduceIte]
    exact s.queue_appended msg.queueName msg.id queueName

/-- The messages of a queue that are not acked. -/
def unacked (queueName : String) (msgs : List (QueueMessage P)) : List (QueueMessage P) :=
  msgs.filter fun msg => msg.queueName = queueName ∧ msg.acked = false

/-- What reading a list of messages with different ids makes of an empty store. -/
theorem foldl_loadMessage_spec (files : Dict ℕ (List (QueueMessage P)))
    {msgs : List (QueueMessage P)} (hids : (msgs.map QueueMessage.id).Nodup) :
    let s : MessageStore P := msgs.foldl loadMessage { files := files }
    (∀ msg ∈ msgs, s.get msg.id = some msg) ∧
      (∀ id msg, s.get id = some msg → msg ∈ msgs ∧ msg.id = id) ∧
      ∀ queueName, s.queue queueName = (unacked queueName msgs).map QueueMessage.id := by
  induction msgs using List.reverseRecOn with
  | nil =>
    refine ⟨by simp, ?_, fun _ => rfl⟩
    intro id msg hget
    cases hget
  | append_singleton msgs last ih =>
    rw [List.map_append, List.nodup_append] at hids
    obtain ⟨hfound, hback, hqueue⟩ := ih hids.1
    simp only [List.foldl_append, List.foldl_cons, List.foldl_nil]
    refine ⟨?_, ?_, ?_⟩
    · intro msg hmem
      rw [get_loadMessage]
      rcases List.mem_append.mp hmem with hold | hlast
      · have hne : last.id ≠ msg.id := by
          intro heq
          exact hids.2.2 msg.id (List.mem_map_of_mem hold) last.id (by simp) heq.symm
        rw [if_neg hne]
        exact hfound msg hold
      · obtain rfl := List.mem_singleton.mp hlast
        rw [if_pos rfl]
    · intro id msg hget
      rw [get_loadMessage] at hget
      split at hget
      · rename_i hid
        cases hget
        exact ⟨by simp, hid⟩
      · obtain ⟨hmem, hid⟩ := hback id msg hget
        exact ⟨List.mem_append_left _ hmem, hid⟩
    · intro queueName
      rw [queue_loadMessage, hqueue, unacked, unacked, List.filter_append, List.map_append]
      by_cases hlast : last.queueName = queueName ∧ last.acked = false
      · simp [hlast]
      · simp [hlast]

/-! ## The files of a store -/

/-- What is true of the files at any time: a file has messages of the queues that it is named
    after, each once and each known to the store. -/
structure Filed (hash : String → ℕ) (s : MessageStore P) : Prop where
  hashed : ∀ file msgs, s.files.get? file = some msgs → ∀ msg ∈ msgs, hash msg.queueName = file
  nodup : ∀ file msgs, s.files.get? file = some msgs → (msgs.map QueueMessage.id).Nodup
  stored : ∀ file msgs, s.files.get? file = some msgs → ∀ msg ∈ msgs,
    ∃ msg', s.get msg.id = some msg' ∧ msg'.queueName = msg.queueName

/-- What the files have pending in a queue. -/
def filePending (hash : String → ℕ) (s : MessageStore P) (queueName : String) :
    List (QueueMessage P) :=
  unacked queueName ((s.files.get? (hash queueName)).getD [])

namespace Filed

variable {hash : String → ℕ} {s : MessageStore P}

/-- No message is in two files. -/
theorem file_unique (h : s.Filed hash) {file file' : ℕ} {msgs msgs' : List (QueueMessage P)}
    (hfile : s.files.get? file = some msgs) (hfile' : s.files.get? file' = some msgs')
    {msg msg' : QueueMessage P} (hmsg : msg ∈ msgs) (hmsg' : msg' ∈ msgs')
    (hid : msg.id = msg'.id) : file = file' := by
  obtain ⟨m, hm, hq⟩ := h.stored file msgs hfile msg hmsg
  obtain ⟨m', hm', hq'⟩ := h.stored file' msgs' hfile' msg' hmsg'
  rw [hid, hm'] at hm
  cases hm
  rw [← h.hashed file msgs hfile msg hmsg, ← h.hashed file' msgs' hfile' msg' hmsg', ← hq, ← hq']

theorem nodup_listed (h : s.Filed hash) {listing : List ℕ} (hlisting : listing.Nodup) :
    ((listed s.files listing).map QueueMessage.id).Nodup := by
  induction listing with
  | nil => exact List.nodup_nil
  | cons file rest ih =>
    obtain ⟨hnot, hrest⟩ := List.nodup_cons.mp hlisting
    rw [listed, List.flatMap_cons, List.map_append, List.nodup_append]
    refine ⟨?_, ih hrest, ?_⟩
    · cases hfile : s.files.get? file with
      | none => exact List.nodup_nil
      | some msgs => exact h.nodup file msgs hfile
    · intro id hid id' hid' heq
      subst heq
      obtain ⟨msg, hmsg, rfl⟩ := List.mem_map.mp hid
      obtain ⟨msg', hmsg', hsame⟩ := List.mem_map.mp hid'
      obtain ⟨file', hfile', hmem'⟩ := List.mem_flatMap.mp hmsg'
      cases hread : s.files.get? file with
      | none => simp [hread] at hmsg
      | some msgs =>
        cases hread' : s.files.get? file' with
        | none => simp [hread'] at hmem'
        | some msgs' =>
          rw [hread] at hmsg
          rw [hread'] at hmem'
          have hsame' := h.file_unique hread hread' hmsg hmem' hsame.symm
          exact hnot (hsame' ▸ hfile')

/-- The messages of a queue come from the one file of the queue. -/
theorem unacked_listed (h : s.Filed hash) {listing : List ℕ} (hlisting : listing.Nodup)
    (queueName : String) (hread : ∀ msgs, s.files.get? (hash queueName) = some msgs →
      hash queueName ∈ listing) :
    unacked queueName (listed s.files listing) = s.filePending hash queueName := by
  have hother : ∀ file, file ≠ hash queueName →
      unacked queueName ((s.files.get? file).getD []) = [] := by
    intro file hne
    cases hfile : s.files.get? file with
    | none => rfl
    | some msgs =>
      apply List.filter_eq_nil_iff.mpr
      intro msg hmsg hmatch
      simp only [decide_eq_true_eq] at hmatch
      exact hne (hmatch.1 ▸ (h.hashed file msgs hfile msg hmsg).symm)
  have hrest : ∀ listing : List ℕ, hash queueName ∉ listing →
      unacked queueName (listed s.files listing) = [] := by
    intro listing hnot
    induction listing with
    | nil => rfl
    | cons file rest ih =>
      have hne : file ≠ hash queueName := fun heq => hnot (by simp [heq])
      have hnot' : hash queueName ∉ rest := fun hin => hnot (List.mem_cons_of_mem _ hin)
      rw [listed, List.flatMap_cons, unacked, List.filter_append]
      exact List.append_eq_nil_iff.mpr ⟨hother file hne, ih hnot'⟩
  induction listing with
  | nil =>
    cases hfile : s.files.get? (hash queueName) with
    | none =>
      simp only [filePending, hfile]
      rfl
    | some msgs => exact absurd (hread msgs hfile) List.not_mem_nil
  | cons file rest ih =>
    obtain ⟨hnot, hnodup⟩ := List.nodup_cons.mp hlisting
    rw [listed, List.flatMap_cons, unacked, List.filter_append]
    by_cases hfile : file = hash queueName
    · subst hfile
      have hempty := hrest rest hnot
      simp only [unacked, listed] at hempty
      rw [hempty, List.append_nil]
      rfl
    · have hempty := hother file hfile
      simp only [unacked] at hempty
      rw [hempty, List.nil_append]
      apply ih hnodup
      intro msgs hmsgs
      exact (List.mem_cons.mp (hread msgs hmsgs)).resolve_left (Ne.symm hfile)

end Filed

/-- **Loading.** What a loaded store has pending in a queue is what its file has, in the same
order and with the same fields. -/
theorem pending_load {hash : String → ℕ} {s : MessageStore P} (h : s.Filed hash) {listing : List ℕ}
    (hlisting : listing.Perm s.files.keys) (queueName : String) :
    (load s.files listing).pending queueName = s.filePending hash queueName := by
  have hnodup : listing.Nodup := hlisting.nodup_iff.mpr s.files.keys_nodup
  obtain ⟨hfound, -, hqueue⟩ := foldl_loadMessage_spec s.files (h.nodup_listed hnodup)
  rw [← h.unacked_listed hnodup queueName fun msgs hmsgs =>
    hlisting.mem_iff.mpr (Dict.mem_keys_of_get? hmsgs)]
  rw [load_eq, pending, hqueue]
  have hsub : ∀ msg ∈ unacked queueName (listed s.files listing),
      msg ∈ listed s.files listing ∧ msg.acked = false := by
    intro msg hmsg
    obtain ⟨hmem, hmatch⟩ := List.mem_filter.mp hmsg
    simp only [decide_eq_true_eq] at hmatch
    exact ⟨hmem, hmatch.2⟩
  generalize unacked queueName (listed s.files listing) = msgs at hsub ⊢
  induction msgs with
  | nil => rfl
  | cons msg msgs ih =>
    obtain ⟨hmem, hacked⟩ := hsub msg (List.mem_cons_self ..)
    have hget := hfound msg hmem
    rw [List.map_cons, List.filterMap_cons_some, ih fun m hm => hsub m (List.mem_cons_of_mem _ hm)]
    show (MessageStore.get _ msg.id).filter _ = some msg
    rw [hget, Option.filter_some, hacked]
    rfl

end MessageStore

end Pynchronize
