import Pynchronize.Cache.Coherence

/-!
# Reads without overlap

When the calls on a key do not overlap, a copy never comes behind an
invalidation. If moreover every invalidation has its effect, all valid copies
have the value of the last write, and so has every answer.
-/

namespace Pynchronize.CacheCluster

open Lib

variable {V : Type*} {cfg : CacheConfig} {s s' : CacheCluster V} {a : CacheAction V}
  {key : String}

/-! ## Sequences of calls -/

/-- A call on the key starts when no call on it is in progress. -/
def Sequential (key : String) (s : CacheCluster V) : CacheAction V → Prop
  | .read _ k | .write _ k _ | .invalidate _ k => k = key →
    ∀ c ∈ s.calls, c.op.key = key → c.stage.isReturned = true
  | _ => True

instance (s : CacheCluster V) (a : CacheAction V) : Decidable (Sequential key s a) :=
  match a with
  | .read .. | .write .. | .invalidate .. => inferInstanceAs (Decidable (_ → ∀ c ∈ s.calls, _ → _))
  | .deliver _ | .reply _ | .noReply _ | .giveUp .. | .finish _ => inferInstanceAs (Decidable True)

/-- No call on the key stands behind one that is in progress. -/
def Newest (key : String) (s : CacheCluster V) : Prop :=
  ∀ (k : ℕ) c, s.calls[k]? = some c → c.op.key = key → c.stage.isReturned = false →
    ∀ (k' : ℕ) c', k < k' → s.calls[k']? = some c' → c'.op.key ≠ key

theorem isReturned_goes {k : ℕ} {c : CacheCall V} {stage : CacheStage V}
    (hgoes : Goes s a k c stage) (h : stage.isReturned = false) : c.stage.isReturned = false := by
  cases hgoes with
  | same => exact h
  | asks hstage => simp [hstage, CacheStage.isReturned]
  | finds => cases h
  | givesUp ha hstage => simp [hstage, CacheStage.isReturned]
  | finishes => cases h

/-- A call on the key that begins finds none in progress. -/
theorem returned_of_begins (hseq : Sequential key s a) {c : CacheCall V}
    (hbegins : Begins cfg s a c) (hkey : c.op.key = key) :
    ∀ d ∈ s.calls, d.op.key = key → d.stage.isReturned = true := by
  unfold Begins at hbegins
  split at hbegins
  · rename_i k hop
    obtain ⟨rfl, -⟩ := hbegins
    exact hseq (by simpa [hop, CacheOp.key] using hkey)
  · rename_i k value hop
    obtain ⟨rfl, -⟩ := hbegins
    exact hseq (by simpa [hop, CacheOp.key] using hkey)

theorem Newest.step (hn : Newest key s) (h : Stepped cfg s a s') (hseq : Sequential key s a) :
    Newest key s' := by
  intro k c hk hkey hprogress k' c' hlt hk'
  cases callFrom h hk with
  | @old d stage hold hgoes hc =>
    subst hc
    have hbefore := isReturned_goes hgoes hprogress
    cases callFrom h hk' with
    | @old d' stage' hold' hgoes' hc' =>
      subst hc'
      exact hn k d hold hkey hbefore k' d' hlt hold'
    | new hlast hi hbegins =>
      intro hkey'
      have := returned_of_begins hseq hbegins hkey' d (List.mem_of_getElem? hold) hkey
      simp [this] at hbefore
  | new hlast =>
    cases callFrom h hk' with
    | old hold' =>
      have := (List.getElem?_eq_some_iff.mp hold').1
      omega
    | new hlast' => omega

/-- There is one call on the key in progress at most. -/
theorem Newest.unique (hn : Newest key s) {k k' : ℕ} {c c' : CacheCall V}
    (hk : s.calls[k]? = some c) (hkey : c.op.key = key) (hprogress : c.stage.isReturned = false)
    (hk' : s.calls[k']? = some c') (hkey' : c'.op.key = key)
    (hprogress' : c'.stage.isReturned = false) : c = c' := by
  rcases Nat.lt_trichotomy k k' with hlt | rfl | hlt
  · exact absurd hkey' (hn k c hk hkey hprogress k' c' hlt hk')
  · exact Option.some.inj (hk.symm.trans hk')
  · exact absurd hkey (hn k' c' hk' hkey' hprogress' k c hlt hk)

theorem isWriting_progress {c : CacheCall V} (h : isWriting key c = true) :
    c.op.key = key ∧ c.stage.isReturned = false := by
  obtain ⟨value, tasks, hop, hstage⟩ := isWriting_iff.mp h
  simp [hop, hstage, CacheOp.key, CacheStage.isReturned]

theorem Found.progress {c : CacheCall V} {response : Fetched V} (h : Found key s c response) :
    c.op.key = key ∧ c.stage.isReturned = false := by
  obtain ⟨j, rest, p, hop, hstage, -⟩ := h
  simp [hop, hstage, CacheOp.key, CacheStage.isReturned]

/-- A `read` that has found a copy and a `write` are not under way at the same time. -/
theorem Newest.not_writing (hn : Newest key s) {c d : CacheCall V} {response : Fetched V}
    (hc : c ∈ s.calls) (hfound : Found key s c response) (hd : d ∈ s.calls) :
    isWriting key d = false := by
  by_contra hwriting
  have hwriting : isWriting key d = true := by simpa using hwriting
  obtain ⟨k, hk⟩ := List.mem_iff_getElem?.mp hc
  obtain ⟨k', hk'⟩ := List.mem_iff_getElem?.mp hd
  obtain rfl := hn.unique hk hfound.progress.1 hfound.progress.2 hk'
    (isWriting_progress hwriting).1 (isWriting_progress hwriting).2
  obtain ⟨j, rest, p, hop, -⟩ := hfound
  obtain ⟨value, tasks, hop', -⟩ := isWriting_iff.mp hwriting
  cases hop.symm.trans hop'

/-- Calls that do not overlap do not disturb each other. -/
theorem Newest.undisturbed (hn : Newest key s) (a : CacheAction V) : Undisturbed key s a := by
  cases a with
  | reply k =>
    intro c hk hfound k' hlt d hk' hwriting
    obtain ⟨response, hfound⟩ := hasFound_iff.mp hfound
    have := hn.not_writing (List.mem_of_getElem? hk) hfound (List.mem_of_getElem? hk')
    simp [this] at hwriting
  | finish k =>
    intro c hk hwriting
    obtain ⟨hkey, hprogress⟩ := isWriting_progress hwriting
    refine ⟨fun k' hlt d hk' hwriting' hne => ?_, fun d hd hfound => ?_⟩
    · obtain ⟨hkey', hprogress'⟩ := isWriting_progress hwriting'
      obtain rfl := hn.unique hk hkey hprogress hk' hkey' hprogress'
      exact absurd rfl hne
    · obtain ⟨response, hfound⟩ := hasFound_iff.mp hfound
      have := hn.not_writing hd hfound (List.mem_of_getElem? hk)
      simp [this] at hwriting
  | _ => trivial

/-! ## The last write -/

/-- What the operation writes to the key. -/
def written (key : String) : CacheOp V → Option V
  | .read _ => none
  | .write k value => if k = key then some value else none

/-- The value of the last `write` of the key. -/
def lastWrite (key : String) (calls : List (CacheCall V)) : Option V :=
  (calls.filterMap fun c => written key c.op).getLast?

theorem written_of_ne {op : CacheOp V} (h : op.key ≠ key) : written key op = none := by
  cases op with
  | read k => rfl
  | write k value => exact if_neg h

theorem lastWrite_append (key : String) (xs ys : List (CacheCall V)) :
    lastWrite key (xs ++ ys) = (lastWrite key ys).or (lastWrite key xs) := by
  simp [lastWrite, List.filterMap_append, List.getLast?_append]

theorem lastWrite_of_none {calls : List (CacheCall V)}
    (h : ∀ c ∈ calls, written key c.op = none) : lastWrite key calls = none := by
  simp [lastWrite, List.filterMap_eq_nil_iff.mpr h]

/-- Later calls that write nothing do not count. -/
theorem lastWrite_take {calls : List (CacheCall V)} {k : ℕ}
    (h : ∀ (k' : ℕ) c, k ≤ k' → calls[k']? = some c → written key c.op = none) :
    lastWrite key (calls.take k) = lastWrite key calls := by
  have hdrop : lastWrite key (calls.drop k) = none := by
    refine lastWrite_of_none fun c hc => ?_
    obtain ⟨m, hm⟩ := List.mem_iff_getElem?.mp hc
    rw [List.getElem?_drop] at hm
    exact h (k + m) c (by omega) hm
  conv_rhs => rw [← List.take_append_drop k calls, lastWrite_append, hdrop]
  simp

/-- The operations of the calls after a step. -/
theorem map_op_step (h : Stepped cfg s a s') :
    s'.calls.map CacheCall.op = s.calls.map CacheCall.op ∨
      ∃ c, Begins cfg s a c ∧ s'.calls.map CacheCall.op = s.calls.map CacheCall.op ++ [c.op] := by
  cases h with
  | @readHit i key entry hi hentry hvalid =>
    exact Or.inr ⟨⟨i, .read key, .returned (.read (some entry.value))⟩,
      ⟨rfl, Or.inr ⟨entry, hentry, hvalid, rfl⟩⟩, by simp [addCall, setNode]⟩
  | @readMiss i key =>
    exact Or.inr ⟨⟨i, .read key, s.ask (cfg.otherNodes i)⟩, ⟨rfl, Or.inl rfl⟩,
      by simp [addPackets, addCall, setNode]⟩
  | @write i key value =>
    exact Or.inr ⟨⟨i, .write key value,
      .writing (List.range' s.packets.length (cfg.otherNodes i).length)⟩, ⟨rfl, rfl⟩,
      by simp [startWrite, addPackets, addCall, setNode]⟩
  | invalidate => exact Or.inl rfl
  | deliver => exact Or.inl (by rw [calls_handle])
  | found hk => exact Or.inl (map_set_of_eq _ hk rfl)
  | missed hk => exact Or.inl (map_set_of_eq _ hk rfl)
  | noReply hk => exact Or.inl (map_set_of_eq _ hk rfl)
  | giveUp hk => exact Or.inl (map_set_of_eq _ hk rfl)
  | finish hk => exact Or.inl (map_set_of_eq _ hk rfl)

theorem lastWrite_congr {calls calls' : List (CacheCall V)}
    (h : calls'.map CacheCall.op = calls.map CacheCall.op) :
    lastWrite key calls' = lastWrite key calls := by
  have hmap : ∀ l : List (CacheCall V), (l.filterMap fun c => written key c.op) =
      (l.map CacheCall.op).filterMap (written key) := by
    intro l
    rw [List.filterMap_map]
    rfl
  simp only [lastWrite, hmap, h]

/-- Only the start of a `write` changes what was written last. -/
theorem lastWrite_step (h : Stepped cfg s a s') :
    lastWrite key s'.calls = lastWrite key s.calls ∨ ∃ i value, a = .write i key value := by
  rcases map_op_step h with hsame | ⟨c, hbegins, hadd⟩
  · exact Or.inl (lastWrite_congr hsame)
  · have hcongr : lastWrite key s'.calls = lastWrite key (s.calls ++ [c]) :=
      lastWrite_congr (by simpa using hadd)
    rw [hcongr, lastWrite_append]
    unfold Begins at hbegins
    split at hbegins
    · rename_i k hop
      exact Or.inl (by simp [lastWrite, hop, written])
    · rename_i k value hop
      by_cases heq : k = key
      · subst heq
        exact Or.inr ⟨c.node, value, hbegins.1⟩
      · exact Or.inl (by simp [lastWrite, hop, written, heq])

theorem lastWrite_take_step (h : Stepped cfg s a s') {k : ℕ} (hk : k ≤ s.calls.length) :
    lastWrite key (s'.calls.take k) = lastWrite key (s.calls.take k) := by
  refine lastWrite_congr ?_
  rw [List.map_take, List.map_take]
  rcases map_op_step h with hsame | ⟨c, -, hadd⟩
  · rw [hsame]
  · rw [hadd, List.take_append_of_le_length (by simpa using hk)]

/-- What a call in progress writes is written last. -/
theorem Newest.lastWrite_eq (hn : Newest key s) {k : ℕ} {c : CacheCall V} {value : V}
    (hk : s.calls[k]? = some c) (hop : c.op = .write key value)
    (hprogress : c.stage.isReturned = false) : lastWrite key s.calls = some value := by
  have hlater : lastWrite key (s.calls.take (k + 1)) = lastWrite key s.calls := by
    refine lastWrite_take fun k' d hle hk' => written_of_ne ?_
    exact hn k c hk (by simp [hop, CacheOp.key]) hprogress k' d (by omega) hk'
  rw [← hlater, List.take_add_one, hk, lastWrite_append]
  simp [lastWrite, hop, written]

/-- A `read` in progress comes behind all writes. -/
theorem Newest.lastWrite_before (hn : Newest key s) {k : ℕ} {c : CacheCall V}
    (hk : s.calls[k]? = some c) (hop : c.op = .read key)
    (hprogress : c.stage.isReturned = false) :
    lastWrite key (s.calls.take k) = lastWrite key s.calls := by
  refine lastWrite_take fun k' d hle hk' => ?_
  rcases Nat.eq_or_lt_of_le hle with rfl | hlt
  · obtain rfl := Option.some.inj (hk.symm.trans hk')
    simp [hop, written]
  · exact written_of_ne (hn k c hk (by simp [hop, CacheOp.key]) hprogress k' d hlt hk')

/-! ## Values -/

/-- Copies and answers have the value of the last write, unless a write is under way. -/
structure Current (key : String) (s : CacheCluster V) : Prop where
  copies : ∀ n e, Holds s n key e → (∃ c ∈ s.calls, isWriting key c = true) ∨
    lastWrite key s.calls = some e.value
  found : ∀ c ∈ s.calls, ∀ response, Found key s c response →
    lastWrite key s.calls = some response.value
  results : ∀ (k : ℕ) c value, s.calls[k]? = some c → c.op = .read key →
    c.stage = .returned (.read (some value)) → lastWrite key (s.calls.take k) = some value

/-- A `write` that has begun is under way. -/
theorem writing_of_write {i : String} {value : V} (h : Stepped cfg s (.write i key value) s') :
    ∃ c ∈ s'.calls, isWriting key c = true := by
  cases h with
  | write =>
    refine ⟨_, List.mem_append_right _ (List.mem_singleton_self _), ?_⟩
    simp [isWriting]

/-- A `write` goes on until it ends. -/
theorem writing_step (h : Stepped cfg s a s') {c : CacheCall V} (hc : c ∈ s.calls)
    (hwriting : isWriting key c = true) :
    (∃ c' ∈ s'.calls, isWriting key c' = true) ∨
      ∃ (k : ℕ) (value : V), a = .finish k ∧ s.calls[k]? = some c ∧ c.op = .write key value := by
  obtain ⟨value, tasks, hop, hstage⟩ := isWriting_iff.mp hwriting
  obtain ⟨k, hk⟩ := List.mem_iff_getElem?.mp hc
  obtain ⟨stage, hgoes, hk'⟩ := call_step h hk
  cases hgoes with
  | same => exact Or.inl ⟨_, List.mem_of_getElem? hk', hwriting⟩
  | asks hreading => cases hstage.symm.trans hreading
  | finds hread => cases hop.symm.trans hread
  | givesUp =>
    exact Or.inl ⟨_, List.mem_of_getElem? hk', isWriting_iff.mpr ⟨value, _, hop, rfl⟩⟩
  | finishes ha => exact Or.inr ⟨k, value, ha, hk, hop⟩

/-- What a `write` leaves at its node. -/
theorem entry_finish {k : ℕ} {c : CacheCall V} {value : V} {e : CacheEntry V}
    (h : Stepped cfg s (.finish k) s') (hk : s.calls[k]? = some c)
    (hop : c.op = .write key value) (he : (s'.nodes c.node).entry key = some e) :
    e.value = value := by
  cases h with
  | finish hk' hop' =>
    obtain rfl := Option.some.inj (hk.symm.trans hk')
    cases hop.symm.trans hop'
    have hnode : (s.finishWrite k c key value).nodes c.node =
        (s.nodes c.node).store key value := nodes_setNode_self ..
    rw [hnode, CacheNode.store] at he
    have hself := CacheNode.entry_install_self
      { s.nodes c.node with
        versions := (s.nodes c.node).versions.set key ((s.nodes c.node).version key + 1) }
      ⟨key, value, MESIProtocol.onLocalWrite, (s.nodes c.node).version key + 1⟩
    cases hself.symm.trans he
    rfl

theorem copies_step (hv : Current key s) (hc : Coherent key s) (hw : Wired cfg s)
    (hn : Newest key s) (h : Stepped cfg s a s') {n : String} {e' : CacheEntry V}
    (hh : Holds s' n key e') :
    (∃ c ∈ s'.calls, isWriting key c = true) ∨ lastWrite key s'.calls = some e'.value := by
  by_cases hwrite : ∃ i value, a = .write i key value
  · obtain ⟨i, value, rfl⟩ := hwrite
    exact Or.inl (writing_of_write h)
  have hlast : lastWrite key s'.calls = lastWrite key s.calls :=
    (lastWrite_step h).resolve_right hwrite
  rw [hlast]
  cases entryFrom h hh.1 with
  | @old e hold hfades =>
    have hold' : Holds s n key e := ⟨hold, hfades.valid hh.2⟩
    rcases hv.copies n e hold' with ⟨c, hc', hwriting⟩ | hvalue
    · rcases writing_step h hc' hwriting with hgoes | ⟨k, value, rfl, hk, hop⟩
      · exact Or.inl hgoes
      · -- the other copies are gone when the write ends, and its own node has the new value
        obtain ⟨_, tasks, -, hstage⟩ := isWriting_iff.mp hwriting
        have hall : ∀ j ∈ tasks, s.isHandled j = true := by
          cases h with
          | finish hk' hop' hstage' hall =>
            obtain rfl := Option.some.inj (hk.symm.trans hk')
            cases hstage.symm.trans hstage'
            exact hall
        obtain rfl := (hc.warned n e hold').finish hw hk hop hstage hall
        rw [entry_finish h hk hop hh.1]
        exact Or.inr (hn.lastWrite_eq hk hop (isWriting_progress hwriting).2)
    · rw [hfades.1]
      exact Or.inr hvalue
  | @fetched k j c rest p response ha hk hnode hop hstage hj hresponse he =>
    subst he
    exact Or.inr (hv.found c (List.mem_of_getElem? hk) response
      ⟨j, rest, p, hop, hstage, hj, hresponse⟩)
  | @written k c value tasks ha hk hnode hop hstage hall hvalue =>
    rw [hvalue]
    exact Or.inr (hn.lastWrite_eq hk hop (by simp [hstage, CacheStage.isReturned]))

theorem found_value_step (hv : Current key s) (hw : Wired cfg s) (hn : Newest key s)
    (h : Stepped cfg s a s') (hseq : Sequential key s a) {c : CacheCall V} {response : Fetched V}
    (hc : c ∈ s'.calls) (hfound : Found key s' c response) :
    lastWrite key s'.calls = some response.value := by
  obtain ⟨hkey, hprogress⟩ := hfound.progress
  obtain ⟨hmem, hbefore⟩ := found_before hw h hc hfound
  have hlast : lastWrite key s'.calls = lastWrite key s.calls := by
    refine (lastWrite_step h).resolve_right ?_
    rintro ⟨i, value, rfl⟩
    have := hseq rfl c hmem hkey
    simp [this] at hprogress
  rw [hlast]
  rcases hbefore with hold | ⟨j, p, rfl, hj, hrequest, hanswer⟩
  · exact hv.found c hmem response hold
  · obtain ⟨e, hold, rfl, -⟩ := shared_of_read h hj hrequest hanswer
    refine (hv.copies p.dst e hold).resolve_left ?_
    rintro ⟨d, hd, hwriting⟩
    obtain ⟨k, hk⟩ := List.mem_iff_getElem?.mp hmem
    obtain ⟨k', hk'⟩ := List.mem_iff_getElem?.mp hd
    obtain rfl := hn.unique hk hkey hprogress hk' (isWriting_progress hwriting).1
      (isWriting_progress hwriting).2
    obtain ⟨_, _, _, hop, -⟩ := hfound
    obtain ⟨_, _, hop', -⟩ := isWriting_iff.mp hwriting
    cases hop.symm.trans hop'

theorem results_step (hv : Current key s) (hn : Newest key s) (h : Stepped cfg s a s')
    (hseq : Sequential key s a) {k : ℕ} {c' : CacheCall V} {value : V}
    (hk : s'.calls[k]? = some c') (hop : c'.op = .read key)
    (hstage : c'.stage = .returned (.read (some value))) :
    lastWrite key (s'.calls.take k) = some value := by
  cases callFrom h hk with
  | @old c stage hold hgoes hc =>
    subst hc
    rw [lastWrite_take_step h (Nat.le_of_lt (List.getElem?_eq_some_iff.mp hold).1)]
    cases hgoes with
    | same => exact hv.results k c value hold hop hstage
    | @asks _ rest => cases rest <;> cases hstage
    | @finds j _ rest p response hop' hreading hj hresponse =>
      cases hstage
      rw [hn.lastWrite_before hold hop (by simp [hreading, CacheStage.isReturned])]
      exact hv.found c (List.mem_of_getElem? hold) response
        ⟨j, rest, p, hop, hreading, hj, hresponse⟩
    | givesUp => cases hstage
    | finishes => cases hstage
  | new hlast hi hbegins =>
    have hreturned := returned_of_begins hseq hbegins (by simp [hop, CacheOp.key])
    rw [lastWrite_take_step h (Nat.le_of_eq hlast), hlast, List.take_length]
    simp only [Begins, hop] at hbegins
    rcases hbegins.2 with hask | ⟨entry, hentry, hvalid, hhit⟩
    · have := hask.symm.trans hstage
      unfold ask at this
      split at this <;> cases this
    · cases hhit.symm.trans hstage
      refine (hv.copies c'.node entry ⟨hentry, hvalid⟩).resolve_left ?_
      rintro ⟨d, hd, hwriting⟩
      obtain ⟨hkey, hprogress⟩ := isWriting_progress hwriting
      simp [hreturned d hd hkey] at hprogress

theorem Current.step (hv : Current key s) (hc : Coherent key s) (hw : Wired cfg s)
    (hn : Newest key s) (h : Stepped cfg s a s') (hseq : Sequential key s a) : Current key s' where
  copies _ _ hh := copies_step hv hc hw hn h hh
  found _ hmem _ hfound := found_value_step hv hw hn h hseq hmem hfound
  results _ _ _ hk hop hstage := results_step hv hn h hseq hk hop hstage

theorem current_boot (cfg : CacheConfig) (key : String) : Current (V := V) key (boot cfg) where
  copies _ _ hh := by simp [Holds, boot, CacheNode.boot, CacheNode.entry] at hh
  found _ hc := absurd hc List.not_mem_nil
  results _ _ _ hk := by simp [boot] at hk

/-- In a run without overlapping calls on the key, in which every invalidation is heeded, each
    `read` returns None or what was written last. -/
theorem reads_current (cfg : CacheConfig) (key : String) (acts : List (CacheAction V))
    (t : CacheCluster V) (hrun : run cfg (boot cfg) acts = some t)
    (hdelivered : EachStep cfg (fun _ a => Delivered a) (boot cfg) acts)
    (hseq : EachStep cfg (Sequential key) (boot cfg) acts)
    (hheeded : EachStep cfg (Heeded key) (boot cfg) acts) (k : ℕ) (c : CacheCall V)
    (result : Option V) (hk : t.calls[k]? = some c) (hop : c.op = .read key)
    (hstage : c.stage = .returned (.read result)) :
    result = none ∨ result = lastWrite key (t.calls.take k) := by
  obtain ⟨-, -, -, hv⟩ : Wired cfg t ∧ Coherent key t ∧ Newest key t ∧ Current key t := by
    refine Transition.run_preserves
      (I := fun s => Wired cfg s ∧ Coherent key s ∧ Newest key s ∧ Current key s)
      (fun s a s' hs hstep hmove => ?_)
      ⟨wired_boot cfg, coherent_boot cfg key, ?_, current_boot cfg key⟩
      ((hdelivered.and hseq).and hheeded) hrun
    · have h := stepped hmove
      obtain ⟨hw, hc, hn, hv⟩ := hs
      obtain ⟨⟨hdelivered, hseq⟩, hheeded⟩ := hstep
      exact ⟨hw.step h hdelivered, hc.step hw h hdelivered hheeded (hn.undisturbed a),
        hn.step h hseq, hv.step hc hw hn h hseq⟩
    · intro k c hk
      simp [boot] at hk
  cases result with
  | none => exact Or.inl rfl
  | some value => exact Or.inr (hv.results k c value hk hop hstage).symm

/-- `b` reads the last write of `a`. -/
theorem reads_current_heeded :
    ∃ t, run cachePair (boot cachePair)
        (heededRun ++ [.read "b" "k", .deliver 5, .reply 5]) = some t ∧
      (some "u" = none ∨ some "u" = lastWrite "k" (t.calls.take 5)) := by
  have hrun : (run cachePair (boot cachePair)
        (heededRun ++ [.read "b" "k", .deliver 5, .reply 5])).any (fun t =>
          t.calls[5]? = some ⟨"b", .read "k", .returned (.read (some "u"))⟩) = true ∧
      EachStep cachePair (fun _ a => Delivered a) (boot cachePair)
        (heededRun ++ [.read "b" "k", .deliver 5, .reply 5]) ∧
      EachStep cachePair (Sequential "k") (boot cachePair)
        (heededRun ++ [.read "b" "k", .deliver 5, .reply 5]) ∧
      EachStep cachePair (Heeded "k") (boot cachePair)
        (heededRun ++ [.read "b" "k", .deliver 5, .reply 5]) := by
    decide +kernel
  obtain ⟨hrun, hdelivered, hseq, hheeded⟩ := hrun
  obtain ⟨t, ht, hk⟩ := (Option.any_eq_true _ _).mp hrun
  exact ⟨t, ht, reads_current cachePair "k" _ t ht hdelivered hseq hheeded 5 _ _
    (of_decide_eq_true hk) rfl rfl⟩

/-- The second write of `a` carries version 1 and does not touch `b`'s copy of version 1. -/
theorem stale_read :
    ∃ t, run cachePair (boot cachePair) ([.write "a" "k" "x", .deliver 0, .finish 0, .read "b" "k",
        .deliver 1, .reply 1, .write "a" "k" "y", .deliver 2, .finish 2, .read "b" "k"] :
          List (CacheAction String)) = some t ∧
      EachStep cachePair (Sequential "k") (boot cachePair) ([.write "a" "k" "x", .deliver 0,
        .finish 0, .read "b" "k", .deliver 1, .reply 1, .write "a" "k" "y", .deliver 2, .finish 2,
        .read "b" "k"] : List (CacheAction String)) ∧
      t.calls[3]? = some ⟨"b", .read "k", .returned (.read (some "x"))⟩ ∧
      lastWrite "k" (t.calls.take 3) = some "y" := by
  have hrun : (run cachePair (boot cachePair) ([.write "a" "k" "x", .deliver 0, .finish 0,
        .read "b" "k", .deliver 1, .reply 1, .write "a" "k" "y", .deliver 2, .finish 2,
        .read "b" "k"] : List (CacheAction String))).any (fun t =>
        t.calls[3]? = some ⟨"b", .read "k", .returned (.read (some "x"))⟩ ∧
        lastWrite "k" (t.calls.take 3) = some "y") = true ∧
      EachStep cachePair (Sequential "k") (boot cachePair) ([.write "a" "k" "x", .deliver 0,
        .finish 0, .read "b" "k", .deliver 1, .reply 1, .write "a" "k" "y", .deliver 2, .finish 2,
        .read "b" "k"] : List (CacheAction String)) := by
    decide +kernel
  obtain ⟨hrun, hseq⟩ := hrun
  obtain ⟨t, ht, h⟩ := (Option.any_eq_true _ _).mp hrun
  exact ⟨t, ht, hseq, of_decide_eq_true h⟩

end Pynchronize.CacheCluster
