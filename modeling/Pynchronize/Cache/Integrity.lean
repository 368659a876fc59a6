import Pynchronize.Cache.Coherence

/-!
# What comes out of the cache

Reads can be stale, but nothing comes out that was not put in: whatever is lost
or late, an entry and the result of a `read` have the value of a `write` of
their key that has returned.
-/

namespace Pynchronize.CacheCluster

open Lib

variable {V : Type*} {cfg : CacheConfig} {s s' : CacheCluster V} {a : CacheAction V}

/-- A `write` of the value to the key has returned. -/
def Written (s : CacheCluster V) (key : String) (value : V) : Prop :=
  ∃ c ∈ s.calls, c.op = .write key value ∧ c.stage = .returned .written

/-- A `read` waits for a request of its own, or it has returned what was written. -/
structure Reads (s : CacheCluster V) (c : CacheCall V) (key : String) : Prop where
  waits : ∀ j rest, c.stage = .reading j rest →
    ∃ p, s.packets[j]? = some p ∧ p.request = .read key
  result : ∀ value, c.stage = .returned (.read (some value)) → Written s key value

structure Intact (cfg : CacheConfig) (s : CacheCluster V) : Prop where
  visits : ∀ c ∈ s.calls, Visits cfg c
  entries : ∀ n key e, (s.nodes n).entry key = some e → Written s key e.value
  requests : ∀ p ∈ s.packets, ∃ c, s.calls[p.call]? = some c ∧ Matches c.op p.request
  packets : ∀ p ∈ s.packets, ∀ key response, p.request = .read key →
    p.stage = .handled (some response) → Written s key response.value
  reads : ∀ c ∈ s.calls, ∀ key, c.op = .read key → Reads s c key

theorem Goes.of_returned {k : ℕ} {c : CacheCall V} {stage : CacheStage V} {result : CacheResult V}
    (h : Goes s a k c stage) (hc : c.stage = .returned result) : stage = .returned result := by
  cases h with
  | same => exact hc
  | asks hstage => cases hc.symm.trans hstage
  | finds _ hstage => cases hc.symm.trans hstage
  | givesUp _ hstage => cases hc.symm.trans hstage
  | finishes _ _ hstage => cases hc.symm.trans hstage

theorem Written.step {key : String} {value : V} (hw : Written s key value)
    (h : Stepped cfg s a s') : Written s' key value := by
  obtain ⟨c, hc, hop, hstage⟩ := hw
  obtain ⟨k, hk⟩ := List.mem_iff_getElem?.mp hc
  obtain ⟨stage, hgoes, hk'⟩ := call_step h hk
  exact ⟨_, List.mem_of_getElem? hk', hop, hgoes.of_returned hstage⟩

/-- A `write` that puts its value into the cache has returned. -/
theorem written_finish {k : ℕ} {call : CacheCall V} {key : String} {value : V}
    (h : Stepped cfg s (.finish k) s') (hk : s.calls[k]? = some call)
    (hop : call.op = .write key value) : Written s' key value := by
  cases h with
  | finish hk' hop' =>
    obtain rfl := Option.some.inj (hk.symm.trans hk')
    exact ⟨_, List.mem_of_getElem? (getElem?_set_of_some hk _), hop, rfl⟩

theorem written_entry (hi : Intact cfg s) (h : Stepped cfg s a s') {n key : String}
    {e' : CacheEntry V} (he : (s'.nodes n).entry key = some e') : Written s' key e'.value := by
  cases entryFrom h he with
  | old hold hfades => exact hfades.1 ▸ (hi.entries n key _ hold).step h
  | fetched ha hk hnode hop hstage hj hresponse heq =>
    subst heq
    obtain ⟨p, hj', hrequest⟩ := (hi.reads _ (List.mem_of_getElem? hk) key hop).waits _ _ hstage
    obtain rfl := Option.some.inj (hj.symm.trans hj')
    exact (hi.packets _ (List.mem_of_getElem? hj) key _ hrequest hresponse).step h
  | written ha hk hnode hop hstage hall hvalue =>
    subst ha hvalue
    exact written_finish h hk hop

/-- What a handler answers is an entry of its node. -/
theorem written_answer (hi : Intact cfg s) {p : CachePacket V} {key : String}
    {response : Fetched V} (hrequest : p.request = .read key)
    (hanswer : s.answer p = some response) : Written s key response.value := by
  unfold answer at hanswer
  rw [hrequest] at hanswer
  dsimp only at hanswer
  rw [CacheNode.snd_handleCacheRead] at hanswer
  obtain ⟨e, he, hresponse⟩ := Option.bind_eq_some_iff.mp hanswer
  split at hresponse
  · cases hresponse
  · obtain rfl := Option.some.inj hresponse
    exact hi.entries p.dst key e he

theorem written_packet (hi : Intact cfg s) (h : Stepped cfg s a s') {j : ℕ} {p' : CachePacket V}
    (hj : s'.packets[j]? = some p') {key : String} {response : Fetched V}
    (hrequest : p'.request = .read key) (hhandled : p'.stage = .handled (some response)) :
    Written s' key response.value := by
  cases packetFrom h hi.visits hj with
  | same hj => exact (hi.packets p' (List.mem_of_getElem? hj) key response hrequest hhandled).step h
  | served ha hj hflight hp =>
    subst hp
    exact (written_answer hi hrequest (CachePacketStage.handled.inj hhandled)).step h
  | new hlen hflight =>
    rw [hflight] at hhandled
    cases hhandled

theorem packets_after (h : Stepped cfg s a s') {j : ℕ} {p : CachePacket V}
    (hj : s.packets[j]? = some p) :
    ∃ p', s'.packets[j]? = some p' ∧ p'.request = p.request := by
  rcases packet_step h hj with hsame | ⟨rfl, -⟩
  · exact ⟨p, hsame, rfl⟩
  · cases h with
    | deliver hj' =>
      obtain rfl := Option.some.inj (hj.symm.trans hj')
      rw [packets_handle]
      exact ⟨_, getElem?_set_of_some hj _, rfl⟩

theorem requests_step (hi : Intact cfg s) (h : Stepped cfg s a s') {p' : CachePacket V}
    (hp : p' ∈ s'.packets) : ∃ c, s'.calls[p'.call]? = some c ∧ Matches c.op p'.request := by
  obtain ⟨j, hj⟩ := List.mem_iff_getElem?.mp hp
  have hold : ∀ q ∈ s.packets, q.call = p'.call → q.request = p'.request →
      ∃ c, s'.calls[p'.call]? = some c ∧ Matches c.op p'.request := by
    intro q hq hcall hrequest
    obtain ⟨c, hc, hmatch⟩ := hi.requests q hq
    obtain ⟨stage, -, hc'⟩ := call_step h hc
    exact ⟨_, hcall ▸ hc', hrequest ▸ hmatch⟩
  cases packetFrom h hi.visits hj with
  | same hj => exact hold p' (List.mem_of_getElem? hj) rfl rfl
  | served ha hq hflight hp =>
    subst hp
    exact hold _ (List.mem_of_getElem? hq) rfl rfl
  | new hlen hflight hc hmatch => exact ⟨_, hc, hmatch⟩

theorem Reads.waits_step (hi : Intact cfg s) (h : Stepped cfg s a s') {k j : ℕ} {c' : CacheCall V}
    (hk : s'.calls[k]? = some c') {key : String} (hop : c'.op = .read key) {rest : List String}
    (hreading : c'.stage = .reading j rest) :
    ∃ p, s'.packets[j]? = some p ∧ p.request = .read key := by
  have hnow : Waits c' j := by
    unfold Waits
    rw [hreading]
  rcases CacheCluster.waits_step h hk hnow with ⟨c, hc, hwaits⟩ | ⟨p, hj, rfl, -⟩
  · obtain ⟨stage, hgoes, hc'⟩ := call_step h hc
    obtain rfl := Option.some.inj (hc'.symm.trans hk)
    have hbefore : ∃ rest, c.stage = .reading j rest := by
      cases hgoes with
      | same => exact ⟨rest, hreading⟩
      | @asks j' rest' hstage =>
        unfold Waits at hwaits
        rw [hstage] at hwaits
        subst hwaits
        exact ⟨rest', hstage⟩
      | finds => cases hreading
      | givesUp => cases hreading
      | finishes => cases hreading
    obtain ⟨rest', hstage⟩ := hbefore
    obtain ⟨p, hj, hrequest⟩ :=
      (hi.reads c (List.mem_of_getElem? hc) key hop).waits j rest' hstage
    obtain ⟨p', hj', hsame⟩ := packets_after h hj
    exact ⟨p', hj', hsame.trans hrequest⟩
  · obtain ⟨c, hc, hmatch⟩ := requests_step hi h (List.mem_of_getElem? hj)
    obtain rfl := Option.some.inj (hk.symm.trans hc)
    refine ⟨p, hj, ?_⟩
    unfold Matches at hmatch
    rw [hop] at hmatch
    exact hmatch

theorem Reads.result_step (hi : Intact cfg s) (h : Stepped cfg s a s') {k : ℕ} {c' : CacheCall V}
    (hk : s'.calls[k]? = some c') {key : String} (hop : c'.op = .read key) {value : V}
    (hresult : c'.stage = .returned (.read (some value))) : Written s' key value := by
  cases callFrom h hk with
  | @old c stage hc hgoes heq =>
    subst heq
    have hreads := hi.reads c (List.mem_of_getElem? hc) key hop
    cases hgoes with
    | same => exact (hreads.result value hresult).step h
    | @asks j rest => cases rest <;> cases hresult
    | finds hop' hstage hj hresponse =>
      cases hresult
      obtain ⟨p, hj', hrequest⟩ := hreads.waits _ _ hstage
      obtain rfl := Option.some.inj (hj.symm.trans hj')
      exact (hi.packets _ (List.mem_of_getElem? hj) key _ hrequest hresponse).step h
    | givesUp => cases hresult
    | finishes => cases hresult
  | new hlast hnode hbegins =>
    unfold Begins at hbegins
    rw [hop] at hbegins
    obtain ⟨-, hask | ⟨e, he, -, hstage⟩⟩ := hbegins
    · rw [hask] at hresult
      unfold ask at hresult
      split at hresult <;> cases hresult
    · cases hstage.symm.trans hresult
      exact (hi.entries _ key e he).step h

theorem Intact.step (hi : Intact cfg s) (h : Stepped cfg s a s') : Intact cfg s' := by
  refine ⟨fun c hc => ?_, fun n key e he => written_entry hi h he,
    fun p hp => requests_step hi h hp, fun p hp key response => ?_, fun c hc key hop => ?_⟩
  · obtain ⟨k, hk⟩ := List.mem_iff_getElem?.mp hc
    cases callFrom h hk with
    | old hk hgoes heq => exact heq ▸ visits_goes hgoes (hi.visits _ (List.mem_of_getElem? hk))
    | new hlast hnode hbegins => exact visits_begins hbegins
  · obtain ⟨j, hj⟩ := List.mem_iff_getElem?.mp hp
    exact written_packet hi h hj
  · obtain ⟨k, hk⟩ := List.mem_iff_getElem?.mp hc
    exact ⟨fun j rest => Reads.waits_step hi h hk hop, fun value => Reads.result_step hi h hk hop⟩

theorem intact_boot (cfg : CacheConfig) : Intact (V := V) cfg (boot cfg) where
  visits _ hc := absurd hc List.not_mem_nil
  entries _ _ _ he := by simp [boot, CacheNode.boot, CacheNode.entry] at he
  requests _ hp := absurd hp List.not_mem_nil
  packets _ hp := absurd hp List.not_mem_nil
  reads _ hc := absurd hc List.not_mem_nil

theorem intact_run {acts : List (CacheAction V)} (hi : Intact cfg s)
    (hrun : s.run cfg acts = some s') : Intact cfg s' :=
  Transition.run_preserves (fun _ _ _ hs _ hstep => hs.step (stepped hstep)) hi
    (Transition.eachStep_of_forall s fun _ _ _ => trivial) hrun

/-- In every run, whatever is lost, late or given up: what a `read` has returned, and every entry
    of every cache, is the value of a `write` of that key that has returned. -/
theorem reads_written (cfg : CacheConfig) {acts : List (CacheAction V)} {s : CacheCluster V}
    (hrun : (boot cfg).run cfg acts = some s) :
    (∀ c ∈ s.calls, ∀ key value, c.op = .read key →
      c.stage = .returned (.read (some value)) → Written s key value) ∧
    ∀ n key e, (s.nodes n).entry key = some e → Written s key e.value := by
  have hi := intact_run (intact_boot cfg) hrun
  exact ⟨fun c hc key value hop hstage => (hi.reads c hc key hop).result value hstage, hi.entries⟩

/-- A stale read is not an invented one: `b` still reads what `a` has written over. -/
theorem reads_written_stale : ∃ s : CacheCluster String,
    run cachePair (boot cachePair) [.write "a" "k" "x", .deliver 0, .finish 0, .read "b" "k",
      .deliver 1, .reply 1, .write "a" "k" "y", .giveUp 2 2, .finish 2, .read "b" "k"] = some s ∧
    s.calls[3]? = some ⟨"b", .read "k", .returned (.read (some "x"))⟩ ∧ Written s "k" "x" := by
  have hrun : (run cachePair (boot cachePair) ([.write "a" "k" "x", .deliver 0, .finish 0,
      .read "b" "k", .deliver 1, .reply 1, .write "a" "k" "y", .giveUp 2 2, .finish 2,
      .read "b" "k"] : List (CacheAction String))).any (fun s =>
      s.calls[3]? = some ⟨"b", .read "k", .returned (.read (some "x"))⟩) = true := by
    decide +kernel
  obtain ⟨s, hs, hcall⟩ := (Option.any_eq_true _ _).mp hrun
  have hcall := of_decide_eq_true hcall
  exact ⟨s, hs, hcall,
    (reads_written cachePair hs).1 _ (List.mem_of_getElem? hcall) "k" "x" rfl rfl⟩

end Pynchronize.CacheCluster
