import Pynchronize.Raft.Answer

/-!
# What AppendEntries does to a log

The loop of `_handle_append_entries` truncates and appends while it iterates.
`Merged` says what is left in the end; the handler as a whole keeps to it and
does nothing when the same message comes again.
-/

namespace Pynchronize

open Lib

variable {N C : Type*}

/-! ## The loop over the entries -/

/-- The entries carry the indices after `prev`. -/
def Consecutive (prev : ℕ) (entries : List (LogEntry C)) : Prop :=
  ∀ p e, entries[p]? = some e → e.index = prev + p + 1

theorem Consecutive.tail {prev : ℕ} {entry : LogEntry C} {rest : List (LogEntry C)}
    (h : Consecutive prev (entry :: rest)) : Consecutive (prev + 1) rest := by
  intro p e he
  have := h (p + 1) e (by simpa using he)
  omega

/-- Some entry has another term than the entry of the log at its place. -/
def Conflicts (prev : ℕ) (entries log : List (LogEntry C)) : Prop :=
  ∃ p e e', entries[p]? = some e ∧ log[prev + p]? = some e' ∧ e'.term ≠ e.term

/-- The log has the entries after `prev`, by index and term. -/
def Agrees (prev : ℕ) (entries log : List (LogEntry C)) : Prop :=
  ∀ p e, entries[p]? = some e → ∃ e', log[prev + p]? = some e' ∧ e'.term = e.term

structure Merged (prev : ℕ) (entries log log' : List (LogEntry C)) : Prop where
  kept : log'.take prev = log.take prev
  agrees : Agrees prev entries log'
  reaches : prev + entries.length ≤ log'.length
  tail : ¬ Conflicts prev entries log →
    log'.drop (prev + entries.length) = log.drop (prev + entries.length)
  cut : Conflicts prev entries log → log'.length = prev + entries.length

theorem not_conflicts_of_length_le {prev : ℕ} {entries log : List (LogEntry C)}
    (h : log.length ≤ prev) : ¬ Conflicts prev entries log := by
  rintro ⟨p, e, e', -, he', -⟩
  have := (List.getElem?_eq_some_iff.mp he').1
  omega

theorem conflicts_cons_of_eq {prev : ℕ} {entry existing : LogEntry C}
    {rest log : List (LogEntry C)} (hlog : log[prev]? = some existing)
    (hterm : existing.term = entry.term) :
    Conflicts prev (entry :: rest) log ↔ Conflicts (prev + 1) rest log := by
  constructor
  · rintro ⟨p, e, e', he, he', hne⟩
    cases p with
    | zero =>
      obtain rfl := Option.some.inj he
      rw [Nat.add_zero, hlog] at he'
      obtain rfl := Option.some.inj he'
      exact absurd hterm hne
    | succ p =>
      exact ⟨p, e, e', by simpa using he, by rw [← he']; congr 1; omega, hne⟩
  · rintro ⟨p, e, e', he, he', hne⟩
    exact ⟨p + 1, e, e', by simpa using he, by rw [← he']; congr 1; omega, hne⟩

/-- An entry that is in the log after the first round stays there. -/
theorem agrees_cons {prev : ℕ} {entry existing : LogEntry C} {rest log : List (LogEntry C)}
    (hlog : log[prev]? = some existing) (hterm : existing.term = entry.term)
    (h : Agrees (prev + 1) rest log) : Agrees prev (entry :: rest) log := by
  intro p e he
  cases p with
  | zero =>
    obtain rfl := Option.some.inj he
    exact ⟨existing, hlog, hterm⟩
  | succ p =>
    obtain ⟨e', he', ht⟩ := h p e (by simpa using he)
    exact ⟨e', by rw [← he']; congr 1; omega, ht⟩

theorem getElem?_of_take_eq {log log' : List (LogEntry C)} {p k : ℕ} (h : log'.take k = log.take k)
    (hp : p < k) : log'[p]? = log[p]? := by
  rw [← List.getElem?_take_of_lt hp, h, List.getElem?_take_of_lt hp]

/-- The first entry is in `log₁`, with nothing before it changed, and the rest is merged. -/
theorem Merged.cons {entry existing : LogEntry C} {rest log log₁ log' : List (LogEntry C)}
    {prev : ℕ} (hm : Merged (prev + 1) rest log₁ log') (hex : log₁[prev]? = some existing)
    (hterm : existing.term = entry.term) (htake : log₁.take prev = log.take prev)
    (hkeeps : ¬ Conflicts prev (entry :: rest) log →
      ¬ Conflicts (prev + 1) rest log₁ ∧ log₁.drop (prev + 1) = log.drop (prev + 1))
    (hcuts : Conflicts prev (entry :: rest) log →
      Conflicts (prev + 1) rest log₁ ∨ log₁.length = prev + 1) :
    Merged prev (entry :: rest) log log' := by
  have hlen : prev + (entry :: rest).length = prev + 1 + rest.length := by
    simp only [List.length_cons]
    omega
  have hex' : log'[prev]? = some existing := by
    rw [getElem?_of_take_eq hm.kept (Nat.lt_succ_self prev), hex]
  refine ⟨?_, agrees_cons hex' hterm hm.agrees, hlen ▸ hm.reaches, ?_, ?_⟩
  · have := congrArg (List.take prev) hm.kept
    rw [List.take_take, List.take_take, min_eq_left (Nat.le_succ prev)] at this
    exact this.trans htake
  · intro hnot
    obtain ⟨hrest, hdrop⟩ := hkeeps hnot
    have htail := hm.tail hrest
    rw [hlen, htail, ← List.drop_drop, hdrop, List.drop_drop]
  · intro hconf
    rw [hlen]
    rcases hcuts hconf with hrest | hshort
    · exact hm.cut hrest
    · have htail := hm.tail (not_conflicts_of_length_le hshort.le)
      have hzero := congrArg List.length htail
      simp only [List.length_drop] at hzero
      have := hm.reaches
      omega

theorem merged_foldl {entries log : List (LogEntry C)} {prev : ℕ} (hprev : prev ≤ log.length)
    (hindex : Consecutive prev entries) :
    Merged prev entries log (entries.foldl RaftNode.mergeEntry log) := by
  induction entries generalizing log prev with
  | nil =>
    exact ⟨rfl, fun p e he => by simp at he, by simpa using hprev, fun _ => rfl,
      fun ⟨p, e, e', he, _⟩ => by simp at he⟩
  | cons entry rest ih =>
    have hentry : entry.index = prev + 1 := hindex 0 entry rfl
    rw [List.foldl_cons]
    rcases Nat.lt_or_ge prev log.length with hlt | hge
    · obtain ⟨existing, hex⟩ : ∃ existing, log[prev]? = some existing :=
        ⟨_, List.getElem?_eq_getElem hlt⟩
      rw [mergeEntry_of_getElem? hentry hex]
      by_cases hterm : existing.term = entry.term
      · rw [if_neg (not_not.mpr hterm)]
        refine (ih hlt hindex.tail).cons hex hterm rfl ?_ ?_
        · exact fun hnot => ⟨fun hrest => hnot ((conflicts_cons_of_eq hex hterm).mpr hrest), rfl⟩
        · exact fun hconf => Or.inl ((conflicts_cons_of_eq hex hterm).mp hconf)
      · -- the conflict cuts the log down to the new entry
        rw [if_pos hterm]
        have hcut : (log.take prev).length = prev := by simp [hprev]
        have hnew : (log.take prev ++ [entry])[prev]? = some entry := by
          rw [List.getElem?_append_right (by omega), hcut, Nat.sub_self]
          rfl
        refine (ih (by simp [hcut]) hindex.tail).cons hnew rfl ?_ ?_ ?_
        · rw [List.take_left' hcut]
        · exact fun hnot => absurd ⟨0, entry, existing, rfl, by simpa using hex, hterm⟩ hnot
        · exact fun _ => Or.inr (by simp [hcut])
    · have hend : log.length = prev := by omega
      rw [mergeEntry_of_length_le hentry hge]
      have hnew : (log ++ [entry])[prev]? = some entry := by
        rw [List.getElem?_append_right hge, hend, Nat.sub_self]
        rfl
      refine (ih (by simp [hend]) hindex.tail).cons hnew rfl ?_ ?_ ?_
      · rw [List.take_append_of_le_length hprev]
      · intro _
        refine ⟨not_conflicts_of_length_le (by simp [hend]), ?_⟩
        rw [List.drop_of_length_le (by simp [hend]), List.drop_of_length_le (by omega)]
      · exact fun hconf => absurd hconf (not_conflicts_of_length_le hge)

/-- Entries that are there already change nothing. -/
theorem foldl_mergeEntry_of_agrees {entries log : List (LogEntry C)} {prev : ℕ}
    (hindex : Consecutive prev entries) (h : Agrees prev entries log) :
    entries.foldl RaftNode.mergeEntry log = log := by
  induction entries generalizing prev with
  | nil => rfl
  | cons entry rest ih =>
    obtain ⟨existing, hex, hterm⟩ := h 0 entry rfl
    rw [List.foldl_cons, mergeEntry_of_getElem? (hindex 0 entry rfl) hex,
      if_neg (not_not.mpr hterm)]
    refine ih hindex.tail fun p e he => ?_
    obtain ⟨e', he', ht⟩ := h (p + 1) e (by simpa using he)
    exact ⟨e', by rw [← he']; congr 1; omega, ht⟩

theorem indexed_foldl {entries log : List (LogEntry C)} {prev : ℕ} (hprev : prev ≤ log.length)
    (hlog : Indexed log) (hindex : Consecutive prev entries) :
    Indexed (entries.foldl RaftNode.mergeEntry log) := by
  have hat : ∀ p e, RaftNode.EntryAt prev entries p e → e.index = p + 1 := by
    rintro p e ⟨hp, he⟩
    have := hindex _ e he
    omega
  intro p e he
  rcases RaftNode.getElem?_foldl_mergeEntry hprev hat he with hold | hnew
  · exact hlog p e hold
  · exact hat p e hnew

/-! ## The handler -/

namespace RaftNode

theorem currentTerm_afterTermCheck {n : RaftNode N C} {term : ℕ}
    (h : n.persistent.currentTerm ≤ term) :
    (n.afterTermCheck term).persistent.currentTerm = term := by
  unfold afterTermCheck
  split
  · rfl
  · exact Nat.le_antisymm h (by omega)

theorem log_afterTermCheck (n : RaftNode N C) (term : ℕ) :
    (n.afterTermCheck term).persistent.log = n.persistent.log := by
  unfold afterTermCheck
  split <;> rfl

theorem afterTermCheck_of_eq {n : RaftNode N C} {term : ℕ} (h : n.persistent.currentTerm = term) :
    n.afterTermCheck term = n :=
  if_neg (by omega)

/-- Whether the previous entry matches only depends on the log. -/
theorem matchesPrev_congr {n n' : RaftNode N C} (h : n'.persistent.log = n.persistent.log)
    (prev prevTerm : ℕ) : n'.matchesPrev prev prevTerm = n.matchesPrev prev prevTerm := by
  unfold matchesPrev getLogEntry
  rw [h]

theorem matchesPrev_of_take_eq {n n' : RaftNode N C} {prev prevTerm : ℕ}
    (h : n'.persistent.log.take prev = n.persistent.log.take prev)
    (hm : n.matchesPrev prev prevTerm = true) : n'.matchesPrev prev prevTerm = true := by
  cases prev with
  | zero => rfl
  | succ p =>
    have he := getElem?_of_take_eq h (Nat.lt_succ_self p)
    unfold matchesPrev at hm ⊢
    rw [getLogEntry_succ] at hm ⊢
    rw [he]
    exact hm

/-- The commit index a follower has after a successful AppendEntries. -/
def newCommitIndex (n : RaftNode N C) (leaderCommit : ℕ) : ℕ :=
  if leaderCommit > n.volatile.commitIndex then min leaderCommit n.getLastLogIndex
  else n.volatile.commitIndex

/-- A commit index that was taken over from the leader stays at the second time. -/
theorem newCommitIndex_of_eq {n n' : RaftNode N C} {leaderCommit : ℕ}
    (hlog : n'.persistent.log = n.persistent.log)
    (hcommit : n'.volatile.commitIndex = n.newCommitIndex leaderCommit) :
    n'.newCommitIndex leaderCommit = n.newCommitIndex leaderCommit := by
  have hlast : n'.getLastLogIndex = n.getLastLogIndex := by
    unfold getLastLogIndex
    rw [hlog]
  unfold newCommitIndex at hcommit ⊢
  rw [hlast, hcommit]
  by_cases h : leaderCommit > n.volatile.commitIndex
  · rw [if_pos h, ite_self]
  · rw [if_neg h, if_neg h]

theorem followCommit_cases (n : RaftNode N C) (leaderCommit : ℕ) :
    ∃ a calls, (n.followCommit leaderCommit).1 = n.withVolatile
      { commitIndex := n.newCommitIndex leaderCommit, lastApplied := a } calls := by
  unfold followCommit newCommitIndex
  split
  · obtain ⟨a, calls, heq⟩ := applyCommitted_volatile { n with
      volatile := { n.volatile with commitIndex := min leaderCommit n.getLastLogIndex } }
    exact ⟨a, calls, heq⟩
  · exact ⟨n.volatile.lastApplied, n.applied, rfl⟩

variable [DecidableEq N] {nodeId : N} {now : ℚ} {n : RaftNode N C} {src : N} {term : ℕ}
  {leaderId : N} {prev prevTerm : ℕ} {entries : List (LogEntry C)} {leaderCommit : ℕ}

theorem answer_appendEntries_of_not_matches (hterm : n.persistent.currentTerm ≤ term)
    (hm : n.matchesPrev prev prevTerm = false) :
    n.answer nodeId now ⟨src, term, .appendEntries leaderId prev prevTerm entries leaderCommit⟩ =
      ((n.afterTermCheck term).heard now leaderId,
        ⟨nodeId, term, .appendEntriesResponse false⟩) := by
  have hcur := currentTerm_afterTermCheck hterm
  have hm' := (matchesPrev_congr (n.log_afterTermCheck term) prev prevTerm).trans hm
  have hhandle := handleAppendEntries_of_not_matches nodeId now (n.afterTermCheck term) leaderId
    entries leaderCommit hcur.le hm'
  unfold answer
  dsimp only
  rw [hhandle]
  show (_, (⟨nodeId, (n.afterTermCheck term).persistent.currentTerm, _⟩ : Message N Response)) = _
  rw [hcur]

variable (nodeId now src leaderId entries leaderCommit) in
/-- A successful AppendEntries merges the entries and follows the commit index. -/
theorem answer_appendEntries_of_matches (hterm : n.persistent.currentTerm ≤ term)
    (hm : n.matchesPrev prev prevTerm = true) :
    ∃ a calls, n.answer nodeId now
        ⟨src, term, .appendEntries leaderId prev prevTerm entries leaderCommit⟩ =
      ((((n.afterTermCheck term).heard now leaderId).mergeEntries entries).withVolatile
        { commitIndex := (((n.afterTermCheck term).heard now leaderId).mergeEntries
            entries).newCommitIndex leaderCommit
          lastApplied := a } calls,
        ⟨nodeId, term, .appendEntriesResponse true⟩) := by
  have hcur := currentTerm_afterTermCheck hterm
  have hm' := (matchesPrev_congr (n.log_afterTermCheck term) prev prevTerm).trans hm
  have hhandle := handleAppendEntries_of_matches nodeId now (n.afterTermCheck term) leaderId
    entries leaderCommit hcur.le hm'
  generalize hmerged : ((n.afterTermCheck term).heard now leaderId).mergeEntries entries = merged
    at hhandle ⊢
  have hmergedTerm : merged.persistent.currentTerm = term := by
    obtain ⟨file, heq⟩ := ((n.afterTermCheck term).heard now leaderId).mergeEntries_eq entries
    rw [← hmerged, heq]
    exact hcur
  obtain ⟨a, calls, hfollow⟩ := merged.followCommit_cases leaderCommit
  unfold answer
  dsimp only
  rw [hhandle, hfollow]
  cases (merged.followCommit leaderCommit).2 with
  | false =>
    refine ⟨a, calls, ?_⟩
    show (_, (⟨nodeId, merged.persistent.currentTerm, _⟩ : Message N Response)) = _
    rw [hmergedTerm]
  | true =>
    obtain ⟨a', calls', hrest⟩ := (merged.withVolatile
      { commitIndex := merged.newCommitIndex leaderCommit, lastApplied := a } calls).applyRest_eq
    refine ⟨a', calls', ?_⟩
    show (applyRest _, appendEntriesResponse nodeId (applyRest _) true) = _
    rw [hrest]
    show (_, (⟨nodeId, merged.persistent.currentTerm, _⟩ : Message N Response)) = _
    rw [hmergedTerm]
    rfl

/-! ## The same message again -/

theorem log_answer_of_matches (hterm : n.persistent.currentTerm ≤ term)
    (hm : n.matchesPrev prev prevTerm = true) :
    (n.answer nodeId now
      ⟨src, term, .appendEntries leaderId prev prevTerm entries leaderCommit⟩).1.persistent.log =
      entries.foldl mergeEntry n.persistent.log := by
  obtain ⟨a, calls, heq⟩ := answer_appendEntries_of_matches nodeId now src leaderId entries
    leaderCommit hterm hm
  rw [heq]
  show (((n.afterTermCheck term).heard now leaderId).mergeEntries entries).persistent.log = _
  rw [log_mergeEntries]
  show entries.foldl mergeEntry (n.afterTermCheck term).persistent.log = _
  rw [log_afterTermCheck]

variable (nodeId now src leaderId prevTerm leaderCommit) in
theorem answer_again (hterm : n.persistent.currentTerm ≤ term)
    (hindex : Consecutive prev entries) (now' : ℚ) :
    let message : Message N (Request N C) :=
      ⟨src, term, .appendEntries leaderId prev prevTerm entries leaderCommit⟩
    let first := n.answer nodeId now message
    let second := first.1.answer nodeId now' message
    second.1.persistent = first.1.persistent ∧
      second.1.volatile.commitIndex = first.1.volatile.commitIndex ∧ second.2 = first.2 := by
  intro message first second
  have hbase := currentTerm_afterTermCheck hterm
  cases hm : n.matchesPrev prev prevTerm with
  | false =>
    have hfirst : first = ((n.afterTermCheck term).heard now leaderId,
        ⟨nodeId, term, .appendEntriesResponse false⟩) :=
      answer_appendEntries_of_not_matches hterm hm
    have hterm' : first.1.persistent.currentTerm = term := by
      rw [hfirst]
      exact hbase
    have hm' : first.1.matchesPrev prev prevTerm = false := by
      rw [hfirst]
      exact (matchesPrev_congr (n.log_afterTermCheck term) prev prevTerm).trans hm
    have hsecond : second = ((first.1.afterTermCheck term).heard now' leaderId,
        ⟨nodeId, term, .appendEntriesResponse false⟩) :=
      answer_appendEntries_of_not_matches hterm'.le hm'
    rw [hsecond, afterTermCheck_of_eq hterm']
    exact ⟨rfl, rfl, by rw [hfirst]⟩
  | true =>
    have hmerged : Merged prev entries n.persistent.log first.1.persistent.log := by
      rw [log_answer_of_matches hterm hm]
      exact merged_foldl (length_of_matchesPrev hm) hindex
    obtain ⟨a, calls, hfirst⟩ := answer_appendEntries_of_matches nodeId now src leaderId
      entries leaderCommit hterm hm
    change first = _ at hfirst
    have hterm' : first.1.persistent.currentTerm = term := by
      obtain ⟨file, heq⟩ := mergeEntries_eq ((n.afterTermCheck term).heard now leaderId) entries
      rw [hfirst]
      show (mergeEntries _ entries).persistent.currentTerm = term
      rw [heq]
      exact hbase
    obtain ⟨a', calls', hsecond⟩ := answer_appendEntries_of_matches nodeId now' src leaderId
      entries leaderCommit hterm'.le (matchesPrev_of_take_eq hmerged.kept hm)
    change second = _ at hsecond
    rw [afterTermCheck_of_eq hterm'] at hsecond
    have hpersistent : ((first.1.heard now' leaderId).mergeEntries entries).persistent =
        first.1.persistent := by
      obtain ⟨file, heq⟩ := mergeEntries_eq (first.1.heard now' leaderId) entries
      rw [heq]
      show { first.1.persistent with log := entries.foldl mergeEntry first.1.persistent.log } = _
      rw [foldl_mergeEntry_of_agrees hindex hmerged.agrees]
    have hcommit : ((first.1.heard now' leaderId).mergeEntries entries).volatile.commitIndex =
        first.1.volatile.commitIndex :=
      congrArg VolatileState.commitIndex (calls_mergeEntries _ entries).2
    refine ⟨by rw [hsecond]; exact hpersistent, ?_, by rw [hsecond, hfirst]⟩
    rw [hsecond, hfirst]
    rw [hfirst] at hpersistent hcommit
    exact newCommitIndex_of_eq (congrArg PersistentState.log hpersistent) hcommit

/-- The merge is exact, a refusal changes no log, and the same message again changes nothing. -/
theorem append_entries_exact (nodeId : N) (now now' : ℚ) {n : RaftNode N C} (src : N) {term : ℕ}
    (leaderId : N) {prev : ℕ} (prevTerm : ℕ) {entries : List (LogEntry C)} (leaderCommit : ℕ)
    (hlog : Indexed n.persistent.log) (hterm : n.persistent.currentTerm ≤ term)
    (hindex : Consecutive prev entries) :
    let message : Message N (Request N C) :=
      ⟨src, term, .appendEntries leaderId prev prevTerm entries leaderCommit⟩
    let first := n.answer nodeId now message
    let second := first.1.answer nodeId now' message
    let log := n.persistent.log
    let log' := first.1.persistent.log
    (first.2.payload.success = true →
      prev ≤ log.length ∧ log'.take prev = log.take prev ∧
      (∀ p e, entries[p]? = some e →
        ∃ e', log'[prev + p]? = some e' ∧ e'.index = e.index ∧ e'.term = e.term) ∧
      (¬ Conflicts prev entries log →
        log'.drop (prev + entries.length) = log.drop (prev + entries.length)) ∧
      (Conflicts prev entries log → log'.length = prev + entries.length) ∧ Indexed log') ∧
    (first.2.payload.success = false → log' = log) ∧
    second.1.persistent.log = log' ∧
    second.1.persistent.currentTerm = first.1.persistent.currentTerm ∧
    second.1.persistent.votedFor = first.1.persistent.votedFor ∧
    second.1.volatile.commitIndex = first.1.volatile.commitIndex ∧ second.2 = first.2 := by
  intro message first second log log'
  obtain ⟨hpersistent, hcommit, hanswer⟩ := answer_again nodeId now src leaderId prevTerm
    leaderCommit hterm hindex now'
  refine ⟨fun hsuccess => ?_, fun hfail => ?_, congrArg PersistentState.log hpersistent,
    congrArg PersistentState.currentTerm hpersistent,
    congrArg PersistentState.votedFor hpersistent, hcommit, hanswer⟩
  · cases hm : n.matchesPrev prev prevTerm with
    | false =>
      have hfirst : first = _ := answer_appendEntries_of_not_matches hterm hm
      rw [hfirst] at hsuccess
      cases hsuccess
    | true =>
      have hprev : prev ≤ log.length := length_of_matchesPrev hm
      have hmerge : log' = entries.foldl mergeEntry log := log_answer_of_matches hterm hm
      have hmerged : Merged prev entries log log' := hmerge ▸ merged_foldl hprev hindex
      have hlog' : Indexed log' := hmerge ▸ indexed_foldl hprev hlog hindex
      refine ⟨hprev, hmerged.kept, fun p e he => ?_, hmerged.tail, hmerged.cut, hlog'⟩
      obtain ⟨e', he', ht⟩ := hmerged.agrees p e he
      exact ⟨e', he', (hlog' _ e' he').trans (hindex p e he).symm, ht⟩
  · cases hm : n.matchesPrev prev prevTerm with
    | false =>
      have hfirst : first = _ := answer_appendEntries_of_not_matches hterm hm
      show first.1.persistent.log = _
      rw [hfirst]
      exact log_afterTermCheck n term
    | true =>
      obtain ⟨a, calls, hfirst⟩ := answer_appendEntries_of_matches nodeId now src leaderId
        entries leaderCommit hterm hm
      change first = _ at hfirst
      rw [hfirst] at hfail
      cases hfail

/-- A follower in term 2 whose third entry conflicts with what the leader of term 2 sends. -/
def followerInTerm2 : RaftNode (Fin 3) ℕ :=
  { boot none 0 with
    persistent := { currentTerm := 2, log := [⟨1, 1, 11⟩, ⟨1, 2, 12⟩, ⟨1, 3, 13⟩, ⟨1, 4, 14⟩] } }

/-- The second entry stays, the third is replaced and the fourth dropped. -/
theorem append_entries_exact_conflict :
    let message : Message (Fin 3) (Request (Fin 3) ℕ) :=
      ⟨0, 2, .appendEntries 0 1 1 [⟨1, 2, 12⟩, ⟨2, 3, 23⟩] 0⟩
    let first := followerInTerm2.answer 1 5 message
    first.2.payload.success = true ∧ first.1.persistent.log.length = 3 ∧
      (first.1.answer 1 6 message).1.persistent.log = first.1.persistent.log := by
  intro message first
  have hlog : Indexed followerInTerm2.persistent.log :=
    (((indexed_nil.append rfl).append rfl).append rfl).append rfl
  have hindex : Consecutive 1 ([⟨1, 2, 12⟩, ⟨2, 3, 23⟩] : List (LogEntry ℕ)) := by
    intro p e he
    rcases p with _ | _ | p
    · exact Option.some.inj he ▸ rfl
    · exact Option.some.inj he ▸ rfl
    · simp at he
  have hterm : followerInTerm2.persistent.currentTerm ≤ 2 := by decide
  have hexact := append_entries_exact (1 : Fin 3) 5 6 0 0 1 0 hlog hterm hindex
  have hsuccess : first.2.payload.success = true := by decide
  obtain ⟨-, -, -, -, hcut, -⟩ := hexact.1 hsuccess
  exact ⟨hsuccess, hcut ⟨1, ⟨2, 3, 23⟩, ⟨1, 3, 13⟩, rfl, rfl, by decide⟩, hexact.2.2.1⟩

end RaftNode

end Pynchronize
