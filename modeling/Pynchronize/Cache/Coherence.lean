import Pynchronize.Cache.Steps

/-!
# One writer

A MODIFIED copy is the only valid one in every run in which invalidations have
their effect: their version is greater than that of the copy they meet, and no
copy comes to a node behind the invalidation of a write under way.
-/

namespace Pynchronize.CacheCluster

open Lib

variable {V : Type*} {cfg : CacheConfig} {s s' : CacheCluster V} {a : CacheAction V}
  {key : String}

/-! ## Calls and their requests -/

/-- Every send ends with its answer. -/
def Delivered : CacheAction V → Prop
  | .noReply _ => False
  | .giveUp .. => False
  | _ => True

instance : DecidablePred (Delivered (V := V)) := fun a =>
  match a with
  | .noReply _ | .giveUp .. => inferInstanceAs (Decidable False)
  | .read .. | .write .. | .invalidate .. | .deliver _ | .reply _ | .finish _ =>
    inferInstanceAs (Decidable True)

/-- Calls and entries belong to configured nodes, requests to the calls that wait for them. -/
structure Wired (cfg : CacheConfig) (s : CacheCluster V) : Prop where
  calls : ∀ c ∈ s.calls, c.node ∈ cfg.nodes ∧ Visits cfg c
  entries : ∀ n key e, (s.nodes n).entry key = some e → n ∈ cfg.nodes
  packets : ∀ p ∈ s.packets, ∃ c, s.calls[p.call]? = some c ∧ Matches c.op p.request ∧
    p.dst ∈ cfg.otherNodes c.node
  waits : ∀ (k j : ℕ) c, s.calls[k]? = some c → Waits c j →
    ∃ p, s.packets[j]? = some p ∧ p.call = k
  tasks : ∀ (k j : ℕ) c tasks p, s.calls[k]? = some c → c.stage = .writing tasks →
    s.packets[j]? = some p → p.call = k → j ∈ tasks

theorem Wired.call_lt (hw : Wired cfg s) {p : CachePacket V} (hp : p ∈ s.packets) :
    p.call < s.calls.length := by
  obtain ⟨c, hc, -⟩ := hw.packets p hp
  exact (List.getElem?_eq_some_iff.mp hc).1

theorem visits_goes {k : ℕ} {c : CacheCall V} {stage : CacheStage V} (hgoes : Goes s a k c stage)
    (hv : Visits cfg c) : Visits cfg { c with stage := stage } := by
  cases hgoes with
  | same => exact hv
  | @asks j rest hstage =>
    unfold Visits at hv ⊢
    rw [hstage] at hv
    cases rest with
    | nil => trivial
    | cons node rest => exact fun n hn => hv (List.mem_cons_of_mem _ hn)
  | finds => trivial
  | givesUp => trivial
  | finishes => trivial

theorem visits_begins {c : CacheCall V} (hbegins : Begins cfg s a c) : Visits cfg c := by
  obtain ⟨node, op, stage⟩ := c
  cases op with
  | read key =>
    obtain ⟨-, hstage | ⟨entry, -, -, hstage⟩⟩ := hbegins
    · have hstage : stage = s.ask (cfg.otherNodes node) := hstage
      subst hstage
      unfold Visits ask
      cases cfg.otherNodes node with
      | nil => trivial
      | cons n rest => exact fun n hn => List.mem_cons_of_mem _ hn
    · have hstage : stage = .returned (.read (some entry.value)) := hstage
      subst hstage
      trivial
  | write key value =>
    obtain ⟨-, hstage⟩ := hbegins
    unfold Visits
    rw [hstage]
    trivial

theorem Wired.step (hw : Wired cfg s) (h : Stepped cfg s a s') (hd : Delivered a) :
    Wired cfg s' := by
  have hvisits : ∀ c ∈ s.calls, Visits cfg c := fun c hc => (hw.calls c hc).2
  refine ⟨fun c hc => ?_, fun n key e he => ?_, fun p hp => ?_, fun k j c hk hwaits => ?_,
    fun k j c tasks p hk hstage hj hcall => ?_⟩
  · obtain ⟨k, hk⟩ := List.mem_iff_getElem?.mp hc
    cases callFrom h hk with
    | old hk hgoes hc =>
      obtain ⟨hi, hv⟩ := hw.calls _ (List.mem_of_getElem? hk)
      exact hc ▸ ⟨hi, visits_goes hgoes hv⟩
    | new hlast hi hbegins => exact ⟨hi, visits_begins hbegins⟩
  · cases entryFrom h he with
    | old hold => exact hw.entries n key _ hold
    | fetched ha hk hnode => exact hnode ▸ (hw.calls _ (List.mem_of_getElem? hk)).1
    | written ha hk hnode => exact hnode ▸ (hw.calls _ (List.mem_of_getElem? hk)).1
  · obtain ⟨j, hj⟩ := List.mem_iff_getElem?.mp hp
    have hold : ∀ q ∈ s.packets, q.call = p.call → q.request = p.request → q.dst = p.dst →
        ∃ c, s'.calls[p.call]? = some c ∧ Matches c.op p.request ∧
          p.dst ∈ cfg.otherNodes c.node := by
      intro q hq hcall hrequest hdst
      obtain ⟨c, hc, hmatch, hother⟩ := hw.packets q hq
      obtain ⟨stage, -, hc'⟩ := call_step h hc
      exact ⟨_, hcall ▸ hc', hrequest ▸ hmatch, hdst ▸ hother⟩
    cases packetFrom h hvisits hj with
    | same hj => exact hold p (List.mem_of_getElem? hj) rfl rfl rfl
    | served ha hq hflight hp =>
      subst hp
      exact hold _ (List.mem_of_getElem? hq) rfl rfl rfl
    | new hlen hflight hc hmatch hdst => exact ⟨_, hc, hmatch, hdst⟩
  · rcases waits_step h hk hwaits with ⟨c, hk, hwaits⟩ | ⟨p, hp, hcall, -⟩
    · obtain ⟨p, hp, hcall⟩ := hw.waits k j c hk hwaits
      rcases packet_step h hp with hp' | ⟨rfl, hflight⟩
      · exact ⟨p, hp', hcall⟩
      · cases h with
        | deliver hj =>
          obtain rfl := Option.some.inj (hp.symm.trans hj)
          refine ⟨{ p with stage := .handled (s.answer p) }, ?_, hcall⟩
          rw [packets_handle]
          exact getElem?_set_of_some hp _
    · exact ⟨p, hp, hcall⟩
  · have hold : ∀ q, s.packets[j]? = some q → q.call = k → j ∈ tasks := by
      intro q hq hqcall
      cases callFrom h hk with
      | @old d stage hk' hgoes hc =>
        subst hc
        cases hgoes with
        | same => exact hw.tasks k j d tasks q hk' hstage hq hqcall
        | @asks _ rest => cases rest <;> cases hstage
        | finds => cases hstage
        | givesUp ha =>
          subst ha
          exact False.elim hd
        | finishes => cases hstage
      | new hlast =>
        have := hw.call_lt (List.mem_of_getElem? hq)
        omega
    cases packetFrom h hvisits hj with
    | same hj => exact hold p hj hcall
    | served ha hq hflight hp =>
      subst hp
      exact hold _ hq hcall
    | @new c' hlen hflight hc hmatch hdst hwaits =>
      obtain rfl := Option.some.inj (hk.symm.trans (hcall ▸ hc))
      unfold Waits at hwaits
      rwa [hstage] at hwaits

theorem wired_boot (cfg : CacheConfig) : Wired (V := V) cfg (boot cfg) where
  calls _ hc := absurd hc List.not_mem_nil
  entries _ _ _ he := by simp [boot, CacheNode.boot, CacheNode.entry] at he
  packets _ hp := absurd hp List.not_mem_nil
  waits _ _ _ hk := by simp [boot] at hk
  tasks _ _ _ _ _ hk := by simp [boot] at hk

/-! ## Copies and those who change them -/

/-- A valid copy of the key at node `n`. -/
def Holds (s : CacheCluster V) (n key : String) (e : CacheEntry V) : Prop :=
  (s.nodes n).entry key = some e ∧ e.state ≠ .invalid

/-- A `write` of the key between its broadcast and its end. -/
def isWriting (key : String) (c : CacheCall V) : Bool :=
  match c.op, c.stage with
  | .write k _, .writing _ => k = key
  | _, _ => false

/-- A `read` of the key whose answer has a copy that is not yet installed. -/
def hasFound (key : String) (s : CacheCluster V) (c : CacheCall V) : Bool :=
  match c.op, c.stage with
  | .read k, .reading j _ => k = key && match (s.packets[j]?).map CachePacket.stage with
    | some (.handled (some _)) => true
    | _ => false
  | _, _ => false

/-- Every `write` of the key under way at another node has its CACHE_INVALIDATE to node `n` under
    way. -/
def Warned (key : String) (s : CacheCluster V) (n : String) : Prop :=
  ∀ k < s.calls.length, ∀ c ∈ s.calls[k]?, isWriting key c = true → c.node ≠ n →
    ∃ p ∈ s.packets, p.call = k ∧ p.dst = n ∧ p.stage = .inFlight

instance [DecidableEq V] (s : CacheCluster V) (n : String) : Decidable (Warned key s n) :=
  have : ∀ (k : ℕ) (c : CacheCall V), Decidable (isWriting key c = true → c.node ≠ n →
      ∃ p ∈ s.packets, p.call = k ∧ p.dst = n ∧ p.stage = .inFlight) :=
    fun _ _ => inferInstance
  inferInstanceAs (Decidable (∀ k < s.calls.length, ∀ c ∈ s.calls[k]?, _))

theorem isWriting_iff {c : CacheCall V} : isWriting key c = true ↔
    ∃ value tasks, c.op = .write key value ∧ c.stage = .writing tasks := by
  obtain ⟨node, op, stage⟩ := c
  cases op <;> cases stage <;> simp [isWriting, eq_comm]

/-- A `read` of the key waits for a request that has found `response`. -/
def Found (key : String) (s : CacheCluster V) (c : CacheCall V) (response : Fetched V) : Prop :=
  ∃ j rest p, c.op = .read key ∧ c.stage = .reading j rest ∧ s.packets[j]? = some p ∧
    p.stage = .handled (some response)

theorem hasFound_iff {c : CacheCall V} :
    hasFound key s c = true ↔ ∃ response, Found key s c response := by
  obtain ⟨node, op, stage⟩ := c
  constructor
  · intro h
    unfold hasFound at h
    split at h
    · rename_i k j rest hop hstage
      obtain ⟨hkey, hanswer⟩ := Bool.and_eq_true_iff.mp h
      split at hanswer
      · rename_i response hp
        obtain ⟨p, hj, hstage'⟩ := Option.map_eq_some_iff.mp hp
        exact ⟨response, j, rest, p, of_decide_eq_true hkey ▸ hop, hstage, hj, hstage'⟩
      · cases hanswer
    · cases h
  · rintro ⟨response, j, rest, p, rfl, rfl, hj, hp⟩
    simp [hasFound, hj, hp]

/-! ## What a delivered request does -/

/-- A CACHE_INVALIDATE that meets a valid copy of the key has a greater version. -/
def Heeded (key : String) (s : CacheCluster V) : CacheAction V → Prop
  | .deliver j => ∀ p ∈ s.packets[j]?,
    match p.request with
    | .invalidate k version => k = key → ∀ e ∈ (s.nodes p.dst).entry key,
      e.state ≠ .invalid → e.version < version
    | .read _ => True
  | _ => True

instance (s : CacheCluster V) (a : CacheAction V) : Decidable (Heeded key s a) :=
  match a with
  | .deliver j =>
    have : ∀ p : CachePacket V, Decidable (match p.request with
        | .invalidate k version => k = key → ∀ e ∈ (s.nodes p.dst).entry key,
          e.state ≠ .invalid → e.version < version
        | .read _ => True) := fun p =>
      match p.request with
      | .invalidate .. => inferInstanceAs (Decidable (_ → _))
      | .read _ => inferInstanceAs (Decidable True)
    inferInstanceAs (Decidable (∀ p ∈ s.packets[j]?, _))
  | .read .. | .write .. | .invalidate .. | .reply _ | .noReply _ | .giveUp .. | .finish _ =>
    inferInstanceAs (Decidable True)

theorem not_holds_of_invalidate {j version : ℕ} {p : CachePacket V} {e : CacheEntry V}
    (h : Stepped cfg s (.deliver j) s') (hheeded : Heeded key s (.deliver j))
    (hj : s.packets[j]? = some p) (hrequest : p.request = .invalidate key version) :
    ¬ Holds s' p.dst key e := by
  rintro ⟨he, hvalid⟩
  cases h with
  | deliver hj' =>
    obtain rfl := Option.some.inj (hj.symm.trans hj')
    rw [nodes_handle_invalidate s j hrequest, nodes_setNode_self,
      CacheNode.entry_handleCacheInvalidate, if_pos rfl] at he
    obtain ⟨old, hold, rfl⟩ := Option.map_eq_some_iff.mp he
    have hless := hheeded p hj
    rw [hrequest] at hless
    have hless := hless rfl old hold
    split at hvalid
    · exact hvalid rfl
    · exact absurd (hless hvalid) ‹_›

/-- A node that answers with its copy keeps it SHARED. -/
theorem shared_of_read {j : ℕ} {p : CachePacket V} {response : Fetched V}
    (h : Stepped cfg s (.deliver j) s') (hj : s.packets[j]? = some p)
    (hrequest : p.request = .read key) (hanswer : s.answer p = some response) :
    ∃ e, Holds s p.dst key e ∧ response = ⟨e.value, e.version, true⟩ ∧
      (s'.nodes p.dst).entry key = some { e with state := .shared } := by
  cases h with
  | deliver hj' =>
    obtain rfl := Option.some.inj (hj.symm.trans hj')
    simp only [answer, hrequest, CacheNode.snd_handleCacheRead] at hanswer
    obtain ⟨e, he, hvalid⟩ := Option.bind_eq_some_iff.mp hanswer
    split at hvalid
    · cases hvalid
    · rename_i hne
      refine ⟨e, ⟨he, hne⟩, (Option.some.inj hvalid).symm, ?_⟩
      rw [nodes_handle_read s j hrequest, nodes_setNode_self, CacheNode.entry_handleCacheRead,
        if_pos rfl, he]
      simp [hne]

/-! ## The steps of a coherent run -/

/-- No copy comes behind an invalidation: a `read` or a `write` installs a copy only while every
    other `write` of the key has still to invalidate the node, and a `write` ends only when no other
    node has found a copy that it is still to install. -/
def Undisturbed (key : String) (s : CacheCluster V) : CacheAction V → Prop
  | .reply k => ∀ c ∈ s.calls[k]?, hasFound key s c = true → Warned key s c.node
  | .finish k => ∀ c ∈ s.calls[k]?, isWriting key c = true →
    Warned key s c.node ∧ ∀ d ∈ s.calls, hasFound key s d = true → d.node = c.node
  | _ => True

instance [DecidableEq V] (s : CacheCluster V) (a : CacheAction V) :
    Decidable (Undisturbed key s a) :=
  match a with
  | .reply k => inferInstanceAs (Decidable (∀ c ∈ s.calls[k]?, _ → _))
  | .finish k => inferInstanceAs (Decidable (∀ c ∈ s.calls[k]?, _ → _ ∧ ∀ d ∈ s.calls, _ → _))
  | .read .. | .write .. | .invalidate .. | .deliver _ | .noReply _ | .giveUp .. =>
    inferInstanceAs (Decidable True)

/-- A MODIFIED copy is the only one, and every other copy is announced its end. -/
structure Coherent (key : String) (s : CacheCluster V) : Prop where
  answers : ∀ p ∈ s.packets, ∀ response, p.stage = .handled (some response) →
    response.shared = true
  exclusive : ∀ n e, (s.nodes n).entry key = some e → e.state ≠ .exclusive
  warned : ∀ n e, Holds s n key e → Warned key s n
  single : ∀ n e, (s.nodes n).entry key = some e → e.state = .modified →
    ∀ n' e', n' ≠ n → ¬ Holds s n' key e'
  found : ∀ n e, (s.nodes n).entry key = some e → e.state = .modified →
    ∀ c ∈ s.calls, hasFound key s c = true → c.node = n

theorem ask_eq_reading {rest rest' : List String} {j : ℕ}
    (h : s.ask rest = .reading j rest') : j = s.packets.length := by
  cases rest with
  | nil => cases h
  | cons node rest =>
    cases h
    rfl

/-- A call that reads waits since before the step, or for a request it has just sent. -/
theorem reading_before (h : Stepped cfg s a s') {k j : ℕ} {c' : CacheCall V} {rest : List String}
    (hk : s'.calls[k]? = some c') (hstage : c'.stage = .reading j rest) :
    s.calls[k]? = some c' ∨ j = s.packets.length := by
  cases callFrom h hk with
  | @old c stage hold hgoes hc =>
    subst hc
    cases hgoes with
    | same => exact Or.inl hold
    | asks => exact Or.inr (ask_eq_reading hstage)
    | finds => cases hstage
    | givesUp => cases hstage
    | finishes => cases hstage
  | new hlast hi hbegins =>
    unfold Begins at hbegins
    split at hbegins
    · rcases hbegins.2 with hask | ⟨entry, -, -, hreturned⟩
      · exact Or.inr (ask_eq_reading (hask.symm.trans hstage))
      · cases hreturned.symm.trans hstage
    · cases hbegins.2.symm.trans hstage

/-- A `read` has found its copy before, or in the request that is handled now. -/
theorem found_before (hw : Wired cfg s) (h : Stepped cfg s a s') {c' : CacheCall V}
    {response : Fetched V} (hc : c' ∈ s'.calls) (hfound : Found key s' c' response) :
    c' ∈ s.calls ∧ (Found key s c' response ∨ ∃ j p, a = .deliver j ∧ s.packets[j]? = some p ∧
      p.request = .read key ∧ s.answer p = some response) := by
  obtain ⟨j, rest, p', hop, hstage, hj, hp'⟩ := hfound
  obtain ⟨k, hk⟩ := List.mem_iff_getElem?.mp hc
  have hbefore : j < s.packets.length → s.calls[k]? = some c' := fun hlt =>
    (reading_before h hk hstage).resolve_right (by omega)
  cases packetFrom h (fun c hc => (hw.calls c hc).2) hj with
  | same hold =>
    have hk := hbefore (List.getElem?_eq_some_iff.mp hold).1
    exact ⟨List.mem_of_getElem? hk, Or.inl ⟨j, rest, p', hop, hstage, hold, hp'⟩⟩
  | @served p ha hold hflight hp =>
    have hk := hbefore (List.getElem?_eq_some_iff.mp hold).1
    obtain ⟨q, hq, hcall⟩ := hw.waits k j c' hk (by simp [Waits, hstage])
    obtain rfl := Option.some.inj (hold.symm.trans hq)
    obtain ⟨d, hd, hmatch, -⟩ := hw.packets p (List.mem_of_getElem? hold)
    obtain rfl := Option.some.inj (hk.symm.trans (hcall ▸ hd))
    simp only [Matches, hop] at hmatch
    subst hp
    simp only [CachePacketStage.handled.injEq] at hp'
    exact ⟨List.mem_of_getElem? hk, Or.inr ⟨j, p, ha, hold, hmatch, hp'⟩⟩
  | new hlen hflight => cases hflight.symm.trans hp'

/-- A `write` under way was so before, or has just begun. -/
theorem writing_before (h : Stepped cfg s a s') {k : ℕ} {c' : CacheCall V}
    (hk : s'.calls[k]? = some c') (hwriting : isWriting key c' = true) :
    (∃ c, s.calls[k]? = some c ∧ isWriting key c = true ∧ c.node = c'.node) ∨
      k = s.calls.length ∧ ∃ value, a = .write c'.node key value := by
  obtain ⟨value, tasks, hop, hstage⟩ := isWriting_iff.mp hwriting
  cases callFrom h hk with
  | @old c stage hold hgoes hc =>
    subst hc
    refine Or.inl ⟨c, hold, isWriting_iff.mpr ?_, rfl⟩
    cases hgoes with
    | same => exact ⟨value, tasks, hop, hstage⟩
    | @asks _ rest => cases rest <;> cases hstage
    | finds => cases hstage
    | @givesUp _ tasks' ha hstage' => exact ⟨value, tasks', hop, hstage'⟩
    | finishes => cases hstage
  | new hlast hi hbegins =>
    simp only [Begins, hop] at hbegins
    exact Or.inr ⟨hlast, value, hbegins.1⟩

/-- A `write` sends to every other node. -/
theorem write_sends {i n : String} {value : V} (h : Stepped cfg s (.write i key value) s')
    (hn : n ∈ cfg.otherNodes i) :
    ∃ p ∈ s'.packets, p.call = s.calls.length ∧ p.dst = n ∧ p.stage = .inFlight := by
  cases h with
  | write =>
    exact ⟨_, List.mem_append_right _ (List.mem_map.mpr ⟨n, hn, rfl⟩), rfl, rfl, rfl⟩

theorem mem_otherNodes {i n : String} : n ∈ cfg.otherNodes i ↔ n ∈ cfg.nodes ∧ n ≠ i := by
  simp [CacheConfig.otherNodes]

/-- An announced invalidation stays announced until it is handled. -/
theorem Warned.step {n : String} (hwarned : Warned key s n) (hw : Wired cfg s)
    (h : Stepped cfg s a s') (hn : n ∈ cfg.nodes)
    (hpasses : ∀ j p version, a = .deliver j → s.packets[j]? = some p → p.dst = n →
      p.request ≠ .invalidate key version) : Warned key s' n := by
  intro k _ c' hk hwriting hne
  rcases writing_before h hk hwriting with ⟨c, hc, hwas, hnode⟩ | ⟨rfl, value, rfl⟩
  · have hlt : k < s.calls.length := (List.getElem?_eq_some_iff.mp hc).1
    obtain ⟨p, hp, hcall, hdst, hflight⟩ := hwarned k hlt c hc hwas (hnode ▸ hne)
    obtain ⟨j, hj⟩ := List.mem_iff_getElem?.mp hp
    rcases packet_step h hj with hj' | ⟨rfl, -⟩
    · exact ⟨p, List.mem_of_getElem? hj', hcall, hdst, hflight⟩
    · obtain ⟨d, hd, hmatch, -⟩ := hw.packets p hp
      obtain rfl := Option.some.inj (hc.symm.trans (hcall ▸ hd))
      obtain ⟨value, tasks, hop, -⟩ := isWriting_iff.mp hwas
      simp only [Matches, hop] at hmatch
      obtain ⟨version, hrequest⟩ := hmatch
      exact absurd hrequest (hpasses j p version rfl hj hdst)
  · exact write_sends h (mem_otherNodes.mpr ⟨hn, Ne.symm hne⟩)

/-- When a `write` ends, all its requests are handled. -/
theorem Warned.finish {n : String} (hwarned : Warned key s n) (hw : Wired cfg s) {k : ℕ}
    {c : CacheCall V} {value : V} {tasks : List ℕ} (hk : s.calls[k]? = some c)
    (hop : c.op = .write key value) (hstage : c.stage = .writing tasks)
    (hall : ∀ j ∈ tasks, s.isHandled j = true) : c.node = n := by
  by_contra hne
  obtain ⟨p, hp, hcall, -, hflight⟩ := hwarned k (List.getElem?_eq_some_iff.mp hk).1 c hk
    (isWriting_iff.mpr ⟨value, tasks, hop, hstage⟩) hne
  obtain ⟨j, hj⟩ := List.mem_iff_getElem?.mp hp
  have hhandled := hall j (hw.tasks k j c tasks p hk hstage hj hcall)
  simp [isHandled, hj, hflight] at hhandled

/-! ## What a step preserves -/

theorem Holds.mem_nodes {n : String} {e : CacheEntry V} (hh : Holds s n key e)
    (hw : Wired cfg s) : n ∈ cfg.nodes :=
  hw.entries n key e hh.1

/-- A valid copy was valid before, or is installed by the end of a `read` or of a `write`. -/
theorem holds_before (h : Stepped cfg s a s') {n : String} {e' : CacheEntry V}
    (hh : Holds s' n key e') :
    (∃ e, Holds s n key e ∧ Fades e e') ∨
    (∃ k c, a = .reply k ∧ s.calls[k]? = some c ∧ c.node = n ∧ hasFound key s c = true) ∨
    ∃ k c value tasks, a = .finish k ∧ s.calls[k]? = some c ∧ c.node = n ∧
      c.op = .write key value ∧ c.stage = .writing tasks ∧
      ∀ j ∈ tasks, s.isHandled j = true := by
  cases entryFrom h hh.1 with
  | old hold hfades => exact Or.inl ⟨_, ⟨hold, hfades.valid hh.2⟩, hfades⟩
  | @fetched k j c rest p response ha hk hnode hop hstage hj hresponse =>
    exact Or.inr (Or.inl ⟨k, c, ha, hk, hnode,
      hasFound_iff.mpr ⟨response, j, rest, p, hop, hstage, hj, hresponse⟩⟩)
  | @written k c value tasks ha hk hnode hop hstage hall =>
    exact Or.inr (Or.inr ⟨k, c, value, tasks, ha, hk, hnode, hop, hstage, hall⟩)

theorem warned_step (hc : Coherent key s) (hw : Wired cfg s) (h : Stepped cfg s a s')
    (hheeded : Heeded key s a) (hcalm : Undisturbed key s a) {n : String} {e' : CacheEntry V}
    (hh : Holds s' n key e') (hn : n ∈ cfg.nodes) : Warned key s' n := by
  have hbefore : Warned key s n := by
    rcases holds_before h hh with ⟨e, hold, -⟩ | ⟨k, c, rfl, hk, rfl, hfound⟩ |
      ⟨k, c, value, tasks, rfl, hk, rfl, hop, hstage, -⟩
    · exact hc.warned n e hold
    · exact hcalm c hk hfound
    · exact (hcalm c hk (isWriting_iff.mpr ⟨value, tasks, hop, hstage⟩)).1
  refine hbefore.step hw h hn ?_
  rintro j p version rfl hj rfl hrequest
  exact not_holds_of_invalidate h hheeded hj hrequest hh

theorem single_step (hc : Coherent key s) (hw : Wired cfg s) (h : Stepped cfg s a s')
    {n n' : String} {e e' : CacheEntry V} (he : (s'.nodes n).entry key = some e)
    (hm : e.state = .modified) (hne : n' ≠ n) : ¬ Holds s' n' key e' := by
  intro hh
  cases entryFrom h he with
  | @old old hold hfades =>
    have hold' : Holds s n key old := ⟨hold, by simp [hfades.modified hm]⟩
    rcases holds_before h hh with ⟨e', hold', -⟩ | ⟨k, c, rfl, hk, hnode, hfound⟩ |
      ⟨k, c, value, tasks, rfl, hk, hnode, hop, hstage, hall⟩
    · exact hc.single n old hold (hfades.modified hm) n' e' hne hold'
    · have := hc.found n old hold (hfades.modified hm) c (List.mem_of_getElem? hk) hfound
      exact hne (hnode.symm.trans this)
    · have := (hc.warned n old hold').finish hw hk hop hstage hall
      exact hne (hnode.symm.trans this)
  | fetched ha hk hnode hop hstage hj hresponse he =>
    have hshared := hc.answers _ (List.mem_of_getElem? hj) _ hresponse
    simp [he, hshared] at hm
  | @written k c value tasks ha hk hnode hop hstage hall =>
    rcases holds_before h hh with ⟨e', hold', -⟩ | ⟨k', c', ha', -⟩ |
      ⟨k', c', value', tasks', ha', hk', hnode', -⟩
    · have := (hc.warned n' e' hold').finish hw hk hop hstage hall
      exact hne (this.symm.trans hnode)
    · cases ha.symm.trans ha'
    · cases ha.symm.trans ha'
      cases hk.symm.trans hk'
      exact hne (hnode'.symm.trans hnode)

theorem found_step (hc : Coherent key s) (hw : Wired cfg s) (h : Stepped cfg s a s')
    (hcalm : Undisturbed key s a) {n : String} {e : CacheEntry V}
    (he : (s'.nodes n).entry key = some e) (hm : e.state = .modified) {c' : CacheCall V}
    (hmem : c' ∈ s'.calls) (hfound : hasFound key s' c' = true) : c'.node = n := by
  obtain ⟨response, hfound⟩ := hasFound_iff.mp hfound
  obtain ⟨hmem, hold | ⟨j, p, rfl, hj, hrequest, hanswer⟩⟩ := found_before hw h hmem hfound
  · have hfound := hasFound_iff.mpr ⟨response, hold⟩
    cases entryFrom h he with
    | old hold hfades => exact hc.found n _ hold (hfades.modified hm) c' hmem hfound
    | fetched ha hk hnode hop hstage hj hresponse he =>
      have hshared := hc.answers _ (List.mem_of_getElem? hj) _ hresponse
      simp [he, hshared] at hm
    | @written k c value tasks ha hk hnode hop hstage =>
      subst ha
      exact ((hcalm c hk (isWriting_iff.mpr ⟨value, tasks, hop, hstage⟩)).2 c' hmem hfound).trans
        hnode
  · obtain ⟨old, hold, -, hshared⟩ := shared_of_read h hj hrequest hanswer
    by_cases heq : n = p.dst
    · subst heq
      cases hshared.symm.trans he
      cases hm
    · cases entryFrom h he with
      | @old e' hold' hfades =>
        exact absurd hold (hc.single n e' hold' (hfades.modified hm) p.dst old (Ne.symm heq))
      | fetched ha => cases ha
      | written ha => cases ha

theorem Coherent.step (hc : Coherent key s) (hw : Wired cfg s) (h : Stepped cfg s a s')
    (hd : Delivered a) (hheeded : Heeded key s a) (hcalm : Undisturbed key s a) :
    Coherent key s' := by
  constructor
  case answers =>
    intro p hp response hhandled
    obtain ⟨j, hj⟩ := List.mem_iff_getElem?.mp hp
    cases packetFrom h (fun c hc => (hw.calls c hc).2) hj with
    | same hj => exact hc.answers p (List.mem_of_getElem? hj) response hhandled
    | @served q ha hq hflight hp =>
      subst hp
      simp only [CachePacketStage.handled.injEq] at hhandled
      cases hrequest : q.request with
      | read k =>
        subst ha
        obtain ⟨e, -, rfl, -⟩ := shared_of_read h hq hrequest hhandled
        rfl
      | invalidate k version => simp [answer, hrequest] at hhandled
    | new hlen hflight => cases hflight.symm.trans hhandled
  case exclusive =>
    intro n e he
    cases entryFrom h he with
    | old hold hfades =>
      rcases hfades.2.2 with heq | hinvalid | ⟨hshared, -⟩
      · exact heq ▸ hc.exclusive n _ hold
      · simp [hinvalid]
      · simp [hshared]
    | fetched ha hk hnode hop hstage hj hresponse he =>
      have hshared := hc.answers _ (List.mem_of_getElem? hj) _ hresponse
      simp [he, hshared]
    | written ha hk hnode hop hstage hall hvalue hmodified => simp [hmodified]
  case warned =>
    intro n e hh
    exact warned_step hc hw h hheeded hcalm hh (hh.mem_nodes (hw.step h hd))
  case single => exact fun n e he hm n' e' hne => single_step hc hw h he hm hne
  case found => exact fun n e he hm c hmem hfound => found_step hc hw h hcalm he hm hmem hfound

theorem coherent_boot (cfg : CacheConfig) (key : String) :
    Coherent (V := V) key (boot cfg) where
  answers _ hp := absurd hp List.not_mem_nil
  exclusive _ _ he := by simp [boot, CacheNode.boot, CacheNode.entry] at he
  warned _ _ hh := by simp [Holds, boot, CacheNode.boot, CacheNode.entry] at hh
  single _ _ he := by simp [boot, CacheNode.boot, CacheNode.entry] at he
  found _ _ he := by simp [boot, CacheNode.boot, CacheNode.entry] at he

/-- In a run in which invalidations are heeded and no copy comes behind one, a node with a MODIFIED
    or EXCLUSIVE copy is the only one with a valid copy. -/
theorem single_writer (cfg : CacheConfig) (key : String) (acts : List (CacheAction V))
    (t : CacheCluster V) (hrun : run cfg (boot cfg) acts = some t)
    (hdelivered : EachStep cfg (fun _ a => Delivered a) (boot cfg) acts)
    (hheeded : EachStep cfg (Heeded key) (boot cfg) acts)
    (hcalm : EachStep cfg (Undisturbed key) (boot cfg) acts) (n : String) (e : CacheEntry V)
    (he : (t.nodes n).entry key = some e) (howned : e.state = .modified ∨ e.state = .exclusive) :
    ∀ n' e', n' ≠ n → (t.nodes n').entry key = some e' → e'.state = .invalid := by
  obtain ⟨-, hc⟩ : Wired cfg t ∧ Coherent key t := by
    refine Transition.run_preserves (I := fun s => Wired cfg s ∧ Coherent key s)
      (fun s a s' hs hstep hmove => ?_) ⟨wired_boot cfg, coherent_boot cfg key⟩
      ((hdelivered.and hheeded).and hcalm) hrun
    have h := stepped hmove
    exact ⟨hs.1.step h hstep.1.1, hs.2.step hs.1 h hstep.1.1 hstep.1.2 hstep.2⟩
  intro n' e' hne he'
  have hm := howned.resolve_right (hc.exclusive n e he)
  by_contra hvalid
  exact hc.single n e he hm n' e' hne ⟨he', hvalid⟩

def cachePair : CacheConfig := { nodes := ["a", "b"], maxSize := fun _ => 1000 }

/-- `a` has counted two writes when it writes over the copy of `b`'s first one. -/
def heededRun : List (CacheAction String) :=
  [.write "a" "k" "x", .deliver 0, .finish 0, .write "a" "k" "y", .deliver 1, .finish 1,
    .invalidate "a" "k", .write "b" "k" "z", .deliver 2, .finish 2, .read "a" "k", .deliver 3,
    .reply 3, .write "a" "k" "u", .deliver 4, .finish 4]

theorem single_writer_heeded :
    ∃ t, run cachePair (boot cachePair) heededRun = some t ∧
      (∃ e, (t.nodes "a").entry "k" = some e ∧ e.value = "u" ∧ e.state = .modified) ∧
      ∀ e', (t.nodes "b").entry "k" = some e' → e'.state = .invalid := by
  have hrun : (run cachePair (boot cachePair) heededRun).any (fun t =>
        (t.nodes "a").entry "k" = some ⟨"k", "u", .modified, 3⟩) = true ∧
      EachStep cachePair (fun _ a => Delivered a) (boot cachePair) heededRun ∧
      EachStep cachePair (Heeded "k") (boot cachePair) heededRun ∧
      EachStep cachePair (Undisturbed "k") (boot cachePair) heededRun := by
    decide +kernel
  obtain ⟨hrun, hdelivered, hheeded, hcalm⟩ := hrun
  obtain ⟨t, ht, he⟩ := (Option.any_eq_true _ _).mp hrun
  have he := of_decide_eq_true he
  refine ⟨t, ht, ⟨_, he, rfl, rfl⟩, fun e' he' => ?_⟩
  exact single_writer cachePair "k" heededRun t ht hdelivered hheeded hcalm "a" _ he (Or.inl rfl)
    "b" e' (by decide) he'

/-- The invalidation of `b`'s first write carries version 0 and does not touch `a`'s copy. -/
theorem owner_beside_copy :
    ∃ t, run cachePair (boot cachePair) ([.write "a" "k" "x", .deliver 0, .finish 0, .read "b" "k",
        .deliver 1, .reply 1, .write "b" "k" "y", .deliver 2, .finish 2] :
          List (CacheAction String)) = some t ∧
      (∀ c ∈ t.calls, c.stage.isReturned = true) ∧ (∀ p ∈ t.packets, p.stage ≠ .inFlight) ∧
      (t.nodes "b").entry "k" = some ⟨"k", "y", .modified, 1⟩ ∧
      (t.nodes "a").entry "k" = some ⟨"k", "x", .shared, 1⟩ := by
  have hrun : (run cachePair (boot cachePair) ([.write "a" "k" "x", .deliver 0, .finish 0,
      .read "b" "k", .deliver 1, .reply 1, .write "b" "k" "y", .deliver 2, .finish 2] :
          List (CacheAction String))).any (fun t =>
      (∀ c ∈ t.calls, c.stage.isReturned = true) ∧ (∀ p ∈ t.packets, p.stage ≠ .inFlight) ∧
      (t.nodes "b").entry "k" = some ⟨"k", "y", .modified, 1⟩ ∧
      (t.nodes "a").entry "k" = some ⟨"k", "x", .shared, 1⟩) = true := by
    decide +kernel
  obtain ⟨t, ht, h⟩ := (Option.any_eq_true _ _).mp hrun
  exact ⟨t, ht, of_decide_eq_true h⟩

end Pynchronize.CacheCluster
