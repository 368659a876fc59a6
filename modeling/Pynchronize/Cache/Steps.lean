import Pynchronize.Lib.Records
import Pynchronize.Cache.Cluster

/-!
# What a step does

`Stepped` lists the cases of a step. From it follow where an entry, a request
and a call after the step come from.
-/

namespace Pynchronize.CacheCluster

open Lib

variable {V : Type*} {cfg : CacheConfig}

/-! ## The cases of a step -/

inductive Stepped (cfg : CacheConfig) (s : CacheCluster V) :
    CacheAction V → CacheCluster V → Prop
  | readHit {i key : String} {entry : CacheEntry V} (hi : i ∈ cfg.nodes)
      (hentry : (s.nodes i).entry key = some entry) (hvalid : entry.state ≠ .invalid) :
      Stepped cfg s (.read i key) ((s.setNode i ((s.nodes i).touch key)).addCall
        ⟨i, .read key, .returned (.read (some entry.value))⟩)
  | readMiss {i key : String} (hi : i ∈ cfg.nodes) :
      Stepped cfg s (.read i key) (((s.setNode i ((s.nodes i).touch key)).addCall
        ⟨i, .read key, s.ask (cfg.otherNodes i)⟩).addPackets
          (asked s.calls.length key (cfg.otherNodes i)))
  | write {i key : String} {value : V} (hi : i ∈ cfg.nodes) :
      Stepped cfg s (.write i key value) (s.startWrite cfg i key value)
  | invalidate {i key : String} (hi : i ∈ cfg.nodes) :
      Stepped cfg s (.invalidate i key) (s.setNode i ((s.nodes i).invalidate key))
  | deliver {j : ℕ} {p : CachePacket V} (hj : s.packets[j]? = some p)
      (hstage : p.stage = .inFlight) : Stepped cfg s (.deliver j) (s.handle j p)
  | found {k j : ℕ} {call : CacheCall V} {key : String} {rest : List String} {p : CachePacket V}
      {response : Fetched V} (hk : s.calls[k]? = some call) (hop : call.op = .read key)
      (hstage : call.stage = .reading j rest) (hj : s.packets[j]? = some p)
      (hresponse : p.stage = .handled (some response)) :
      Stepped cfg s (.reply k) (s.resumeRead k call key rest (some response))
  | missed {k j : ℕ} {call : CacheCall V} {key : String} {rest : List String} {p : CachePacket V}
      (hk : s.calls[k]? = some call) (hop : call.op = .read key)
      (hstage : call.stage = .reading j rest) (hj : s.packets[j]? = some p)
      (hresponse : p.stage = .handled none) :
      Stepped cfg s (.reply k) (s.resumeRead k call key rest none)
  | noReply {k j : ℕ} {call : CacheCall V} {key : String} {rest : List String}
      (hk : s.calls[k]? = some call) (hop : call.op = .read key)
      (hstage : call.stage = .reading j rest) :
      Stepped cfg s (.noReply k) (s.resumeRead k call key rest none)
  | giveUp {k j : ℕ} {call : CacheCall V} {tasks : List ℕ} (hk : s.calls[k]? = some call)
      (hstage : call.stage = .writing tasks) (hj : j ∈ tasks) :
      Stepped cfg s (.giveUp k j) (s.setStage k call (.writing (tasks.erase j)))
  | finish {k : ℕ} {call : CacheCall V} {key : String} {value : V} {tasks : List ℕ}
      (hk : s.calls[k]? = some call) (hop : call.op = .write key value)
      (hstage : call.stage = .writing tasks) (hall : ∀ j ∈ tasks, s.isHandled j = true) :
      Stepped cfg s (.finish k) (s.finishWrite k call key value)

theorem stepped_reply {s s' : CacheCluster V} {k : ℕ}
    (h : s.step cfg (.reply k) = some s') : Stepped cfg s (.reply k) s' := by
  simp only [step] at h
  split at h
  · rename_i call hk
    split at h
    · rename_i key j rest hop hstage
      split at h
      · rename_i response hresponse
        obtain ⟨p, hj, hp⟩ := Option.map_eq_some_iff.mp hresponse
        obtain rfl := Option.some.inj h
        cases response with
        | some response => exact .found hk hop hstage hj hp
        | none => exact .missed hk hop hstage hj hp
      · cases h
    · cases h
  · cases h

theorem stepped {s s' : CacheCluster V} {a : CacheAction V} (h : s.step cfg a = some s') :
    Stepped cfg s a s' := by
  cases a with
  | read i key =>
    simp only [step] at h
    split at h
    · rename_i hi
      obtain rfl := Option.some.inj h
      unfold startRead
      cases hentry : (s.nodes i).entry key with
      | none => exact .readMiss hi
      | some entry =>
        by_cases hvalid : entry.state = .invalid
        · simpa [Option.filter, hvalid] using Stepped.readMiss hi
        · simpa [Option.filter, hvalid] using Stepped.readHit hi hentry hvalid
    · cases h
  | write i key value =>
    simp only [step] at h
    split at h
    · rename_i hi
      obtain rfl := Option.some.inj h
      exact .write hi
    · cases h
  | invalidate i key =>
    simp only [step] at h
    split at h
    · rename_i hi
      obtain rfl := Option.some.inj h
      exact .invalidate hi
    · cases h
  | deliver j =>
    simp only [step] at h
    split at h
    · rename_i p hj
      split at h
      · rename_i hstage
        obtain rfl := Option.some.inj h
        exact .deliver hj hstage
      · cases h
    · cases h
  | reply k => exact stepped_reply h
  | noReply k =>
    simp only [step] at h
    split at h
    · rename_i call hk
      split at h
      · rename_i key j rest hop hstage
        obtain rfl := Option.some.inj h
        exact .noReply hk hop hstage
      · cases h
    · cases h
  | giveUp k j =>
    simp only [step] at h
    split at h
    · rename_i call hk
      split at h
      · rename_i tasks hstage
        split at h
        · rename_i hj
          obtain rfl := Option.some.inj h
          exact .giveUp hk hstage hj
        · cases h
      · cases h
    · cases h
  | finish k =>
    simp only [step] at h
    split at h
    · rename_i call hk
      split at h
      · rename_i key value tasks hop hstage
        split at h
        · rename_i hall
          obtain rfl := Option.some.inj h
          exact .finish hk hop hstage (List.all_eq_true.mp hall)
        · cases h
      · cases h
    · cases h

/-! ## Entries -/

/-- What is left of an entry: its state may go down. -/
def Fades (e e' : CacheEntry V) : Prop :=
  e'.value = e.value ∧ e'.version = e.version ∧
    (e'.state = e.state ∨ e'.state = .invalid ∨ e'.state = .shared ∧ e.state ≠ .invalid)

theorem Fades.refl (e : CacheEntry V) : Fades e e := ⟨rfl, rfl, Or.inl rfl⟩

theorem Fades.valid {e e' : CacheEntry V} (h : Fades e e') (hvalid : e'.state ≠ .invalid) :
    e.state ≠ .invalid := by
  rcases h.2.2 with heq | hinvalid | ⟨-, hne⟩
  · exact heq ▸ hvalid
  · exact absurd hinvalid hvalid
  · exact hne

theorem Fades.modified {e e' : CacheEntry V} (h : Fades e e') (hm : e'.state = .modified) :
    e.state = .modified := by
  rcases h.2.2 with heq | hinvalid | ⟨hshared, -⟩
  · exact heq ▸ hm
  · cases hinvalid.symm.trans hm
  · cases hshared.symm.trans hm

/-- Where an entry of the key comes from. -/
inductive EntryFrom (s : CacheCluster V) (a : CacheAction V) (n key : String)
    (e' : CacheEntry V) : Prop
  | old {e : CacheEntry V} (hold : (s.nodes n).entry key = some e) (hfades : Fades e e')
  | fetched {k j : ℕ} {call : CacheCall V} {rest : List String} {p : CachePacket V}
      {response : Fetched V} (ha : a = .reply k) (hk : s.calls[k]? = some call)
      (hnode : call.node = n) (hop : call.op = .read key) (hstage : call.stage = .reading j rest)
      (hj : s.packets[j]? = some p) (hresponse : p.stage = .handled (some response))
      (he : e' = ⟨key, response.value, if response.shared then .shared else .exclusive,
        response.version⟩)
  | written {k : ℕ} {call : CacheCall V} {value : V} {tasks : List ℕ} (ha : a = .finish k)
      (hk : s.calls[k]? = some call) (hnode : call.node = n) (hop : call.op = .write key value)
      (hstage : call.stage = .writing tasks) (hall : ∀ j ∈ tasks, s.isHandled j = true)
      (hvalue : e'.value = value) (hmodified : e'.state = .modified)

theorem nodes_setNode_self (s : CacheCluster V) (i : String) (node : CacheNode V) :
    (s.setNode i node).nodes i = node := Function.update_self ..

theorem nodes_setNode_of_ne (s : CacheCluster V) {i n : String} (node : CacheNode V)
    (h : n ≠ i) : (s.setNode i node).nodes n = s.nodes n := Function.update_of_ne h ..

theorem entryFrom_same {s s' : CacheCluster V} {a : CacheAction V} {n key : String}
    {e' : CacheEntry V} (hnodes : s'.nodes n = s.nodes n)
    (he : (s'.nodes n).entry key = some e') : EntryFrom s a n key e' :=
  .old (hnodes ▸ he) (.refl e')

/-- Only node `i` is touched. -/
theorem entryFrom_setNode {s s' : CacheCluster V} {a : CacheAction V} {i n key : String}
    {node : CacheNode V} {e' : CacheEntry V} (hnodes : s'.nodes = (s.setNode i node).nodes)
    (he : (s'.nodes n).entry key = some e')
    (h : n = i → node.entry key = some e' → EntryFrom s a n key e') : EntryFrom s a n key e' := by
  by_cases heq : n = i
  · subst heq
    rw [hnodes, nodes_setNode_self] at he
    exact h rfl he
  · exact entryFrom_same (by rw [hnodes, nodes_setNode_of_ne _ _ heq]) he

theorem entryFrom_install {s : CacheCluster V} {a : CacheAction V} {n key : String}
    {node : CacheNode V} {entry e' : CacheEntry V} (hnode : node.entry key = (s.nodes n).entry key)
    (he : (node.install entry).entry key = some e')
    (hself : entry.key = key → e' = entry → EntryFrom s a n key e') :
    EntryFrom s a n key e' := by
  by_cases heq : entry.key = key
  · subst heq
    rw [CacheNode.entry_install_self] at he
    exact hself rfl (Option.some.inj he).symm
  · rcases node.entry_install_of_ne heq with hsame | hnone
    · rw [hsame, hnode] at he
      exact .old he (.refl e')
    · rw [hnone] at he
      cases he

theorem nodes_handle_read (s : CacheCluster V) (j : ℕ) {p : CachePacket V} {key : String}
    (h : p.request = .read key) :
    (s.handle j p).nodes = (s.setNode p.dst ((s.nodes p.dst).handleCacheRead key).1).nodes := by
  unfold handle
  rw [h]

theorem nodes_handle_invalidate (s : CacheCluster V) (j : ℕ) {p : CachePacket V} {key : String}
    {version : ℕ} (h : p.request = .invalidate key version) :
    (s.handle j p).nodes =
      (s.setNode p.dst ((s.nodes p.dst).handleCacheInvalidate key version)).nodes := by
  unfold handle
  rw [h]

theorem entryFrom_handle {s : CacheCluster V} {a : CacheAction V} {j : ℕ} {p : CachePacket V}
    {n key : String} {e' : CacheEntry V}
    (he : ((s.handle j p).nodes n).entry key = some e') : EntryFrom s a n key e' := by
  cases hrequest : p.request with
  | read k =>
    refine entryFrom_setNode (s.nodes_handle_read j hrequest) he ?_
    rintro rfl hnew
    rw [CacheNode.entry_handleCacheRead] at hnew
    split at hnew
    · obtain ⟨e, hold, rfl⟩ := Option.map_eq_some_iff.mp hnew
      refine .old hold ?_
      split
      · exact .refl e
      · rename_i hvalid
        exact ⟨rfl, rfl, Or.inr (Or.inr ⟨rfl, hvalid⟩)⟩
    · exact .old hnew (.refl e')
  | invalidate k version =>
    refine entryFrom_setNode (s.nodes_handle_invalidate j hrequest) he ?_
    rintro rfl hnew
    rw [CacheNode.entry_handleCacheInvalidate] at hnew
    split at hnew
    · obtain ⟨e, hold, rfl⟩ := Option.map_eq_some_iff.mp hnew
      refine .old hold ?_
      split
      · exact ⟨rfl, rfl, Or.inr (Or.inl rfl)⟩
      · exact .refl e
    · exact .old hnew (.refl e')

theorem entryFrom {s s' : CacheCluster V} {a : CacheAction V} (h : Stepped cfg s a s')
    {n key : String} {e' : CacheEntry V} (he : (s'.nodes n).entry key = some e') :
    EntryFrom s a n key e' := by
  have htouch : ∀ {i k : String}, s'.nodes = (s.setNode i ((s.nodes i).touch k)).nodes →
      EntryFrom s a n key e' := by
    intro i k hnodes
    refine entryFrom_setNode hnodes he ?_
    rintro rfl hnew
    rw [CacheNode.entry_touch] at hnew
    exact .old hnew (.refl e')
  cases h with
  | readHit => exact htouch rfl
  | readMiss => exact htouch rfl
  | write => exact htouch rfl
  | invalidate =>
    refine entryFrom_setNode (by rfl) he ?_
    rintro rfl hnew
    rw [CacheNode.entry_invalidate] at hnew
    split at hnew
    · obtain ⟨e, hold, rfl⟩ := Option.map_eq_some_iff.mp hnew
      exact .old hold ⟨rfl, rfl, Or.inr (Or.inl rfl)⟩
    · exact .old hnew (.refl e')
  | deliver => exact entryFrom_handle he
  | found hk hop hstage hj hresponse =>
    refine entryFrom_setNode (by rfl) he ?_
    rintro rfl hnew
    refine entryFrom_install rfl hnew ?_
    rintro rfl rfl
    exact .fetched rfl hk rfl hop hstage hj hresponse rfl
  | missed => exact entryFrom_same (by rfl) he
  | noReply => exact entryFrom_same (by rfl) he
  | giveUp => exact entryFrom_same (by rfl) he
  | finish hk hop hstage hall =>
    refine entryFrom_setNode (by rfl) he ?_
    rintro rfl hnew
    refine entryFrom_install rfl hnew ?_
    rintro rfl rfl
    exact .written rfl hk rfl hop hstage hall rfl rfl

/-! ## Requests -/

/-- The request is one of the operation. -/
def Matches (op : CacheOp V) (request : CacheRequest) : Prop :=
  match op with
  | .read key => request = .read key
  | .write key _ => ∃ version, request = .invalidate key version

/-- What a handler answers. -/
def answer (s : CacheCluster V) (p : CachePacket V) : Option (Fetched V) :=
  match p.request with
  | .read key => ((s.nodes p.dst).handleCacheRead key).2
  | .invalidate .. => none

theorem packets_handle (s : CacheCluster V) (j : ℕ) (p : CachePacket V) :
    (s.handle j p).packets = s.packets.set j { p with stage := .handled (s.answer p) } := by
  obtain ⟨call, dst, request, stage⟩ := p
  cases request <;> rfl

/-- The call waits for the request. -/
def Waits (c : CacheCall V) (j : ℕ) : Prop :=
  match c.stage with
  | .reading j' _ => j' = j
  | .writing tasks => j ∈ tasks
  | .returned _ => False

theorem calls_handle (s : CacheCluster V) (j : ℕ) (p : CachePacket V) :
    (s.handle j p).calls = s.calls := by
  obtain ⟨call, dst, request, stage⟩ := p
  cases request <;> rfl

/-- Where a request comes from. -/
inductive PacketFrom (cfg : CacheConfig) (s : CacheCluster V) (a : CacheAction V)
    (s' : CacheCluster V) (j : ℕ) (p' : CachePacket V) : Prop
  | same (hj : s.packets[j]? = some p')
  | served {p : CachePacket V} (ha : a = .deliver j) (hj : s.packets[j]? = some p)
      (hflight : p.stage = .inFlight) (hp : p' = { p with stage := .handled (s.answer p) })
  | new {c : CacheCall V} (hlen : s.packets.length ≤ j) (hflight : p'.stage = .inFlight)
      (hc : s'.calls[p'.call]? = some c) (hmatch : Matches c.op p'.request)
      (hdst : p'.dst ∈ cfg.otherNodes c.node) (hwaits : Waits c j)

theorem packetFrom_append {s s' : CacheCluster V} {a : CacheAction V} {new : List (CachePacket V)}
    (hpackets : s'.packets = s.packets ++ new) {j : ℕ} {p' : CachePacket V}
    (hj : s'.packets[j]? = some p')
    (hnew : ∀ (m : ℕ) p, new[m]? = some p → p.stage = .inFlight ∧ ∃ c,
      s'.calls[p.call]? = some c ∧ Matches c.op p.request ∧ p.dst ∈ cfg.otherNodes c.node ∧
        Waits c (s.packets.length + m)) :
    PacketFrom cfg s a s' j p' := by
  rw [hpackets] at hj
  by_cases hlt : j < s.packets.length
  · rw [List.getElem?_append_left hlt] at hj
    exact .same hj
  · rw [List.getElem?_append_right (by omega)] at hj
    obtain ⟨hflight, c, hc, hmatch, hdst, hwaits⟩ := hnew _ p' hj
    rw [Nat.add_sub_cancel' (by omega)] at hwaits
    exact .new (by omega) hflight hc hmatch hdst hwaits

/-- The nodes a read has still to ask are other nodes. -/
def Visits (cfg : CacheConfig) (c : CacheCall V) : Prop :=
  match c.stage with
  | .reading _ rest => rest ⊆ cfg.otherNodes c.node
  | _ => True

/-- A call that asks the next node sends one request and waits for it. -/
theorem getElem?_asked (s : CacheCluster V) {k m : ℕ} {key : String} {rest : List String}
    {p : CachePacket V} (h : (asked k key rest)[m]? = some p) (c : CacheCall V)
    (hc : c.stage = s.ask rest) :
    p.call = k ∧ p.request = .read key ∧ p.stage = .inFlight ∧ p.dst ∈ rest ∧
      Waits c (s.packets.length + m) := by
  cases rest with
  | nil => simp [asked] at h
  | cons node rest =>
    cases m with
    | zero =>
      simp only [asked, List.getElem?_cons_zero, Option.some.injEq] at h
      subst h
      simp [Waits, hc, ask]
    | succ m => simp [asked] at h

theorem packetFrom_resumeRead {s : CacheCluster V} {a : CacheAction V} {k j' : ℕ}
    {call : CacheCall V} {key : String} {rest : List String} (hk : s.calls[k]? = some call)
    (hop : call.op = .read key) (hstage : call.stage = .reading j' rest)
    (hvisits : Visits cfg call) {j : ℕ} {p' : CachePacket V}
    (hj : (s.resumeRead k call key rest none).packets[j]? = some p') :
    PacketFrom cfg s a (s.resumeRead k call key rest none) j p' := by
  have hpackets : (s.resumeRead k call key rest none).packets = s.packets ++ asked k key rest := rfl
  refine packetFrom_append hpackets hj fun m p hp => ?_
  obtain ⟨rfl, hrequest, hflight, hdst, hwaits⟩ :=
    s.getElem?_asked hp { call with stage := s.ask rest } rfl
  unfold Visits at hvisits
  rw [hstage] at hvisits
  refine ⟨hflight, { call with stage := s.ask rest },
    getElem?_set_of_some hk _, ?_, hvisits hdst, hwaits⟩
  simp [Matches, hop, hrequest]

theorem packetFrom {s s' : CacheCluster V} {a : CacheAction V} (h : Stepped cfg s a s')
    (hvisits : ∀ c ∈ s.calls, Visits cfg c) {j : ℕ} {p' : CachePacket V}
    (hj : s'.packets[j]? = some p') : PacketFrom cfg s a s' j p' := by
  cases h with
  | readHit => exact .same hj
  | @readMiss i key =>
    refine packetFrom_append (by rfl) hj fun m p hp => ?_
    obtain ⟨hcall, hrequest, hflight, hdst, hwaits⟩ :=
      s.getElem?_asked hp ⟨i, .read key, s.ask (cfg.otherNodes i)⟩ rfl
    refine ⟨hflight, ⟨i, .read key, s.ask (cfg.otherNodes i)⟩, ?_, hrequest, hdst, hwaits⟩
    rw [hcall]
    exact List.getElem?_concat_length
  | @write i key value =>
    refine packetFrom_append (by rfl) hj fun m p hp => ?_
    rw [List.getElem?_map] at hp
    obtain ⟨node, hnode, rfl⟩ := Option.map_eq_some_iff.mp hp
    have hlt : m < (cfg.otherNodes i).length := (List.getElem?_eq_some_iff.mp hnode).1
    refine ⟨rfl, ⟨i, .write key value, .writing
      (List.range' s.packets.length (cfg.otherNodes i).length)⟩, List.getElem?_concat_length,
      ⟨_, rfl⟩, List.mem_of_getElem? hnode, ?_⟩
    simp only [Waits, List.mem_range'_1]
    omega
  | invalidate => exact .same hj
  | @deliver j' p hj' hflight =>
    rw [packets_handle] at hj
    rcases getElem?_set_cases hj with ⟨rfl, hp⟩ | ⟨-, hold⟩
    · exact .served rfl hj' hflight hp
    · exact .same hold
  | found => exact .same hj
  | missed hk hop hstage =>
    exact packetFrom_resumeRead hk hop hstage (hvisits _ (List.mem_of_getElem? hk)) hj
  | noReply hk hop hstage =>
    exact packetFrom_resumeRead hk hop hstage (hvisits _ (List.mem_of_getElem? hk)) hj
  | giveUp => exact .same hj
  | finish => exact .same hj

/-- A request stays where it is until it is delivered. -/
theorem packet_step {s s' : CacheCluster V} {a : CacheAction V} (h : Stepped cfg s a s') {j : ℕ}
    {p : CachePacket V} (hj : s.packets[j]? = some p) :
    s'.packets[j]? = some p ∨ a = .deliver j ∧ p.stage = .inFlight := by
  cases h with
  | readHit => exact Or.inl hj
  | readMiss => exact Or.inl (getElem?_append_of_some hj _)
  | write => exact Or.inl (getElem?_append_of_some hj _)
  | invalidate => exact Or.inl hj
  | @deliver j' p' hj' hflight =>
    by_cases heq : j' = j
    · subst heq
      obtain rfl := Option.some.inj (hj.symm.trans hj')
      exact Or.inr ⟨rfl, hflight⟩
    · rw [packets_handle, List.getElem?_set_ne heq]
      exact Or.inl hj
  | found => exact Or.inl hj
  | missed => exact Or.inl (getElem?_append_of_some hj _)
  | noReply => exact Or.inl (getElem?_append_of_some hj _)
  | giveUp => exact Or.inl hj
  | finish => exact Or.inl hj

/-! ## Calls -/

/-- How a new call begins. -/
def Begins (cfg : CacheConfig) (s : CacheCluster V) (a : CacheAction V) (c : CacheCall V) : Prop :=
  match c.op with
  | .read key => a = .read c.node key ∧
    (c.stage = s.ask (cfg.otherNodes c.node) ∨
      ∃ entry, (s.nodes c.node).entry key = some entry ∧ entry.state ≠ .invalid ∧
        c.stage = .returned (.read (some entry.value)))
  | .write key value => a = .write c.node key value ∧
    c.stage = .writing (List.range' s.packets.length (cfg.otherNodes c.node).length)

/-- How an old call goes on. -/
inductive Goes (s : CacheCluster V) (a : CacheAction V) (k : ℕ) (c : CacheCall V) :
    CacheStage V → Prop
  | same : Goes s a k c c.stage
  | asks {j : ℕ} {rest : List String} (hstage : c.stage = .reading j rest) :
      Goes s a k c (s.ask rest)
  | finds {j : ℕ} {key : String} {rest : List String} {p : CachePacket V} {response : Fetched V}
      (hop : c.op = .read key) (hstage : c.stage = .reading j rest)
      (hj : s.packets[j]? = some p) (hresponse : p.stage = .handled (some response)) :
      Goes s a k c (.returned (.read (some response.value)))
  | givesUp {j : ℕ} {tasks : List ℕ} (ha : a = .giveUp k j) (hstage : c.stage = .writing tasks) :
      Goes s a k c (.writing (tasks.erase j))
  | finishes {tasks : List ℕ} {key : String} {value : V} (ha : a = .finish k)
      (hop : c.op = .write key value) (hstage : c.stage = .writing tasks) :
      Goes s a k c (.returned .written)

/-- Where a call comes from. -/
inductive CallFrom (cfg : CacheConfig) (s : CacheCluster V) (a : CacheAction V) (k : ℕ)
    (c' : CacheCall V) : Prop
  | old {c : CacheCall V} {stage : CacheStage V} (hk : s.calls[k]? = some c)
      (hgoes : Goes s a k c stage) (hc : c' = { c with stage := stage })
  | new (hlast : k = s.calls.length) (hi : c'.node ∈ cfg.nodes) (hbegins : Begins cfg s a c')

theorem callFrom_same {s : CacheCluster V} {a : CacheAction V} {k : ℕ} {c' : CacheCall V}
    (hk : s.calls[k]? = some c') : CallFrom cfg s a k c' :=
  .old hk .same rfl

theorem callFrom_append {s s' : CacheCluster V} {a : CacheAction V} {c : CacheCall V}
    (hcalls : s'.calls = s.calls ++ [c]) {k : ℕ} {c' : CacheCall V} (hk : s'.calls[k]? = some c')
    (hi : c.node ∈ cfg.nodes) (hbegins : Begins cfg s a c) : CallFrom cfg s a k c' := by
  rw [hcalls] at hk
  rcases getElem?_concat_cases hk with hold | ⟨hlast, rfl⟩
  · exact callFrom_same hold
  · exact .new hlast hi hbegins

theorem callFrom_set {s s' : CacheCluster V} {a : CacheAction V} {k k' : ℕ} {c c' : CacheCall V}
    {stage : CacheStage V} (hcalls : s'.calls = s.calls.set k { c with stage := stage })
    (hk : s.calls[k]? = some c) (hgoes : Goes s a k c stage) (hk' : s'.calls[k']? = some c') :
    CallFrom cfg s a k' c' := by
  rw [hcalls] at hk'
  rcases getElem?_set_cases hk' with ⟨rfl, hc⟩ | ⟨-, hold⟩
  · exact .old hk hgoes hc
  · exact callFrom_same hold

theorem callFrom {s s' : CacheCluster V} {a : CacheAction V} (h : Stepped cfg s a s') {k : ℕ}
    {c' : CacheCall V} (hk : s'.calls[k]? = some c') : CallFrom cfg s a k c' := by
  cases h with
  | @readHit i key entry hi hentry hvalid =>
    exact callFrom_append (c := ⟨i, .read key, .returned (.read (some entry.value))⟩) rfl hk hi
      ⟨rfl, Or.inr ⟨entry, hentry, hvalid, rfl⟩⟩
  | @readMiss i key hi =>
    exact callFrom_append (c := ⟨i, .read key, s.ask (cfg.otherNodes i)⟩) rfl hk hi
      ⟨rfl, Or.inl rfl⟩
  | @write i key value hi =>
    exact callFrom_append (c := ⟨i, .write key value,
      .writing (List.range' s.packets.length (cfg.otherNodes i).length)⟩) rfl hk hi ⟨rfl, rfl⟩
  | invalidate => exact callFrom_same hk
  | deliver =>
    rw [calls_handle] at hk
    exact callFrom_same hk
  | found hk' hop hstage hj hresponse =>
    exact callFrom_set (by rfl) hk' (.finds hop hstage hj hresponse) hk
  | missed hk' hop hstage => exact callFrom_set (by rfl) hk' (.asks hstage) hk
  | noReply hk' hop hstage => exact callFrom_set (by rfl) hk' (.asks hstage) hk
  | giveUp hk' hstage => exact callFrom_set (by rfl) hk' (.givesUp rfl hstage) hk
  | finish hk' hop hstage => exact callFrom_set (by rfl) hk' (.finishes rfl hop hstage) hk

theorem length_calls_le {s s' : CacheCluster V} {a : CacheAction V} (h : Stepped cfg s a s') :
    s.calls.length ≤ s'.calls.length := by
  cases h with
  | deliver => simp [calls_handle]
  | _ => simp [addCall, addPackets, setNode, setStage, startWrite, resumeRead, finishWrite]

/-- An old call goes on. -/
theorem call_step {s s' : CacheCluster V} {a : CacheAction V} (h : Stepped cfg s a s') {k : ℕ}
    {c : CacheCall V} (hk : s.calls[k]? = some c) :
    ∃ stage, Goes s a k c stage ∧ s'.calls[k]? = some { c with stage := stage } := by
  have hlt : k < s.calls.length := (List.getElem?_eq_some_iff.mp hk).1
  have hlt' : k < s'.calls.length := by
    have := length_calls_le h
    omega
  have hk' : s'.calls[k]? = some s'.calls[k] := List.getElem?_eq_getElem hlt'
  cases callFrom h hk' with
  | @old d stage hd hgoes hc =>
    obtain rfl := Option.some.inj (hk.symm.trans hd)
    exact ⟨stage, hgoes, hk'.trans (congrArg some hc)⟩
  | new hlast => omega

/-- A call that asks the next node waits for the request it sends. -/
theorem exists_asked {s : CacheCluster V} {k j : ℕ} {key : String} {rest : List String}
    {c : CacheCall V} (hstage : c.stage = s.ask rest) (hwaits : Waits c j) :
    ∃ p, (s.packets ++ asked k key rest)[j]? = some p ∧ p.call = k ∧ p.stage = .inFlight := by
  cases rest with
  | nil => simp [Waits, hstage, ask] at hwaits
  | cons node rest =>
    simp only [Waits, hstage, ask] at hwaits
    subst hwaits
    exact ⟨_, List.getElem?_concat_length, rfl, rfl⟩

/-- What a call has begun to wait for is under way. -/
theorem waits_step {s s' : CacheCluster V} {a : CacheAction V} (h : Stepped cfg s a s') {k j : ℕ}
    {c' : CacheCall V} (hk : s'.calls[k]? = some c') (hwaits : Waits c' j) :
    (∃ c, s.calls[k]? = some c ∧ Waits c j) ∨
      ∃ p, s'.packets[j]? = some p ∧ p.call = k ∧ p.stage = .inFlight := by
  cases h with
  | @readHit i key entry =>
    rcases getElem?_concat_cases hk with hk | ⟨-, rfl⟩
    · exact Or.inl ⟨c', hk, hwaits⟩
    · simp [Waits] at hwaits
  | @readMiss i key =>
    rcases getElem?_concat_cases hk with hk | ⟨rfl, rfl⟩
    · exact Or.inl ⟨c', hk, hwaits⟩
    · exact Or.inr (exists_asked rfl hwaits)
  | @write i key value =>
    rcases getElem?_concat_cases hk with hk | ⟨rfl, rfl⟩
    · exact Or.inl ⟨c', hk, hwaits⟩
    · simp only [Waits, List.mem_range'_1] at hwaits
      obtain ⟨node, hnode⟩ : ∃ node, (cfg.otherNodes i)[j - s.packets.length]? = some node :=
        ⟨_, List.getElem?_eq_getElem (by omega)⟩
      refine Or.inr ⟨⟨s.calls.length, node, .invalidate key ((s.nodes i).version key), .inFlight⟩,
        ?_, rfl, rfl⟩
      show (s.packets ++ (cfg.otherNodes i).map _)[j]? = _
      rw [List.getElem?_append_right hwaits.1, List.getElem?_map, hnode]
      rfl
  | invalidate => exact Or.inl ⟨c', hk, hwaits⟩
  | deliver =>
    rw [calls_handle] at hk
    exact Or.inl ⟨c', hk, hwaits⟩
  | found =>
    rcases getElem?_set_cases hk with ⟨-, rfl⟩ | ⟨-, hk⟩
    · simp [Waits] at hwaits
    · exact Or.inl ⟨c', hk, hwaits⟩
  | missed =>
    rcases getElem?_set_cases hk with ⟨rfl, rfl⟩ | ⟨-, hk⟩
    · exact Or.inr (exists_asked rfl hwaits)
    · exact Or.inl ⟨c', hk, hwaits⟩
  | noReply =>
    rcases getElem?_set_cases hk with ⟨rfl, rfl⟩ | ⟨-, hk⟩
    · exact Or.inr (exists_asked rfl hwaits)
    · exact Or.inl ⟨c', hk, hwaits⟩
  | giveUp hk' hstage =>
    rcases getElem?_set_cases hk with ⟨rfl, rfl⟩ | ⟨-, hk⟩
    · refine Or.inl ⟨_, hk', ?_⟩
      simp only [Waits, hstage] at hwaits ⊢
      exact List.mem_of_mem_erase hwaits
    · exact Or.inl ⟨c', hk, hwaits⟩
  | finish =>
    rcases getElem?_set_cases hk with ⟨-, rfl⟩ | ⟨-, hk⟩
    · simp [Waits] at hwaits
    · exact Or.inl ⟨c', hk, hwaits⟩

end Pynchronize.CacheCluster
