import Pynchronize.Cache.Coherence

/-!
# Versions

An entry gets its version from the counter of its node, from the answer of
another node or from a CACHE_WRITE, and is installed whatever is there.
`versions_rise_iff` says when the versions of a cluster only go up. A CACHE_WRITE
comes from outside.
-/

namespace Pynchronize

open Lib

variable {V : Type*}

inductive BusAction (V : Type*)
  | inside (a : CacheAction V)
  | cacheWrite (i key : String) (value : V) (version : ℕ)

/-! ## One node -/

namespace CacheNode

/-- Entries that stay have a version at least as great. -/
def Lifts (n n' : CacheNode V) : Prop :=
  ∀ key e e', n.entry key = some e → n'.entry key = some e' → e.version ≤ e'.version

/-- The node has nothing newer under the key. -/
def noneAbove (n : CacheNode V) (key : String) (version : ℕ) : Bool :=
  (n.entry key).all fun e => e.version ≤ version

theorem noneAbove_iff {n : CacheNode V} {key : String} {version : ℕ} :
    n.noneAbove key version = true ↔ ∀ e, n.entry key = some e → e.version ≤ version := by
  unfold noneAbove
  cases n.entry key <;> simp

theorem lifts_refl (n : CacheNode V) : Lifts n n := by
  intro key e e' he he'
  obtain rfl := Option.some.inj (he.symm.trans he')
  exact Nat.le_refl _

theorem lifts_touch (n : CacheNode V) (key : String) : Lifts n (n.touch key) := by
  intro k e e' he he'
  rw [entry_touch] at he'
  obtain rfl := Option.some.inj (he.symm.trans he')
  exact Nat.le_refl _

theorem lifts_of_map {n n' : CacheNode V} {key : String} {f : CacheEntry V → CacheEntry V}
    (hf : ∀ e, (f e).version = e.version)
    (h : ∀ k, n'.entry k = if key = k then (n.entry k).map f else n.entry k) : Lifts n n' := by
  intro k e e' he he'
  rw [h, he] at he'
  split at he'
  · obtain rfl := Option.some.inj he'
    exact Nat.le_of_eq (hf e).symm
  · obtain rfl := Option.some.inj he'
    exact Nat.le_refl _

theorem lifts_invalidate (n : CacheNode V) (key : String) : Lifts n (n.invalidate key) :=
  lifts_of_map (f := fun e => { e with state := .invalid }) (fun _ => rfl) (n.entry_invalidate key)

theorem lifts_handleCacheRead (n : CacheNode V) (key : String) :
    Lifts n (n.handleCacheRead key).1 := by
  refine lifts_of_map (fun e => ?_) (n.entry_handleCacheRead key)
  split <;> rfl

theorem lifts_handleCacheInvalidate (n : CacheNode V) (key : String) (version : ℕ) :
    Lifts n (n.handleCacheInvalidate key version) := by
  refine lifts_of_map (fun e => ?_) fun k => n.entry_handleCacheInvalidate key k version
  split <;> rfl

/-- A new entry for a key that others keep or lose. -/
theorem lifts_iff_of_put {n n' : CacheNode V} {entry : CacheEntry V} {key : String}
    (hself : n'.entry key = some entry)
    (hother : ∀ k, key ≠ k → n'.entry k = n.entry k ∨ n'.entry k = none) :
    Lifts n n' ↔ n.noneAbove key entry.version = true := by
  rw [noneAbove_iff]
  refine ⟨fun h e he => h key e entry he hself, fun h k e e' he he' => ?_⟩
  by_cases heq : key = k
  · subst heq
    obtain rfl := Option.some.inj (hself.symm.trans he')
    exact h e he
  · rcases hother k heq with hsame | hnone
    · rw [hsame] at he'
      obtain rfl := Option.some.inj (he.symm.trans he')
      exact Nat.le_refl _
    · rw [hnone] at he'
      cases he'

theorem lifts_fetch_iff (n : CacheNode V) (key : String) (response : Fetched V) :
    Lifts n (n.fetch key response) ↔ n.noneAbove key response.version = true :=
  lifts_iff_of_put (n.entry_install_self _) fun _ hne => n.entry_install_of_ne hne

theorem lifts_handleCacheWrite_iff (n : CacheNode V) (key : String) (value : V) (version : ℕ) :
    Lifts n (n.handleCacheWrite key value version) ↔ n.noneAbove key version = true :=
  lifts_iff_of_put (n.entry_handleCacheWrite_self key value version) fun _ hne =>
    n.entry_handleCacheWrite_of_ne value version hne

theorem lifts_store_iff (n : CacheNode V) (key : String) (value : V) :
    Lifts n (n.store key value) ↔ n.noneAbove key (n.version key + 1) = true := by
  let n' : CacheNode V := { n with versions := n.versions.set key (n.version key + 1) }
  exact lifts_iff_of_put (n'.entry_install_self ⟨key, value, .modified, n.version key + 1⟩)
    fun _ hne => n'.entry_install_of_ne hne

/-- A `write` installs a greater version than the entry of its key has. -/
def Outdoes (n n' : CacheNode V) (key : String) : Prop :=
  ∀ e, n.entry key = some e → ∃ e', n'.entry key = some e' ∧ e.version < e'.version

theorem outdoes_store_iff (n : CacheNode V) (key : String) (value : V) :
    Outdoes n (n.store key value) key ↔ n.noneAbove key (n.version key) = true := by
  let n' : CacheNode V := { n with versions := n.versions.set key (n.version key + 1) }
  have hself : (n.store key value).entry key = some ⟨key, value, .modified, n.version key + 1⟩ :=
    n'.entry_install_self ⟨key, value, .modified, n.version key + 1⟩
  rw [noneAbove_iff]
  constructor
  · intro h e he
    obtain ⟨e', he', hlt⟩ := h e he
    obtain rfl := Option.some.inj (hself.symm.trans he')
    exact Nat.le_of_lt_succ hlt
  · intro h e he
    exact ⟨_, hself, Nat.lt_succ_of_le (h e he)⟩

end CacheNode

/-! ## The cluster -/

namespace CacheCluster

variable {cfg : CacheConfig}

def busStep (cfg : CacheConfig) (s : CacheCluster V) : BusAction V → Option (CacheCluster V)
  | .inside a => s.step cfg a
  | .cacheWrite i key value version =>
    if i ∈ cfg.nodes then some (s.setNode i ((s.nodes i).handleCacheWrite key value version))
    else none

/-- Resident entries keep or raise their versions, and a `write` that ends raises the version of
    what it replaces. -/
structure VersionsRise (s : CacheCluster V) (a : BusAction V) (s' : CacheCluster V) : Prop where
  resident : ∀ i, (s.nodes i).Lifts (s'.nodes i)
  written : ∀ k call key value, a = .inside (.finish k) → s.calls[k]? = some call →
    call.op = .write key value → (s.nodes call.node).Outdoes (s'.nodes call.node) key

/-- An answer and a CACHE_WRITE are not older than the entry they replace, and a `write` is not
    behind with the counter of its node. -/
def installsNewer (s : CacheCluster V) : BusAction V → Bool
  | .inside (.reply k) =>
    match s.calls[k]? with
    | some call => match call.op, call.stage with
      | .read key, .reading j _ => match (s.packets[j]?).map CachePacket.stage with
        | some (.handled (some response)) => (s.nodes call.node).noneAbove key response.version
        | _ => true
      | _, _ => true
    | none => true
  | .inside (.finish k) =>
    match s.calls[k]? with
    | some call => match call.op with
      | .write key _ => (s.nodes call.node).noneAbove key ((s.nodes call.node).version key)
      | .read _ => true
    | none => true
  | .cacheWrite i key _ version => (s.nodes i).noneAbove key version
  | _ => true

theorem lifts_setNode_iff {s s' : CacheCluster V} {i : String} {n : CacheNode V}
    (h : s'.nodes = (s.setNode i n).nodes) :
    (∀ j, (s.nodes j).Lifts (s'.nodes j)) ↔ (s.nodes i).Lifts n := by
  rw [h]
  constructor
  · intro hall
    have := hall i
    rwa [nodes_setNode_self] at this
  · intro hi j
    by_cases heq : j = i
    · subst heq
      rwa [nodes_setNode_self]
    · rw [nodes_setNode_of_ne _ _ heq]
      exact CacheNode.lifts_refl _

/-- Where no `write` ends. -/
theorem versionsRise_iff {s s' : CacheCluster V} {a : BusAction V} {i : String} {n : CacheNode V}
    (ha : ∀ k, a ≠ .inside (.finish k)) (h : s'.nodes = (s.setNode i n).nodes) :
    VersionsRise s a s' ↔ (s.nodes i).Lifts n := by
  rw [← lifts_setNode_iff h]
  exact ⟨fun hrise => hrise.resident, fun hall => ⟨hall, fun k _ _ _ hk => absurd hk (ha k)⟩⟩

theorem versionsRise_same {s s' : CacheCluster V} {a : BusAction V}
    (ha : ∀ k, a ≠ .inside (.finish k)) (h : s'.nodes = s.nodes) : VersionsRise s a s' := by
  refine ⟨fun j => ?_, fun k _ _ _ hk => absurd hk (ha k)⟩
  rw [h]
  exact CacheNode.lifts_refl _

theorem versionsRise_step {s s' : CacheCluster V} {a : BusAction V}
    (h : s.busStep cfg a = some s') : VersionsRise s a s' ↔ s.installsNewer a = true := by
  cases a with
  | cacheWrite i key value version =>
    simp only [busStep] at h
    split at h
    · obtain rfl := Option.some.inj h
      exact (versionsRise_iff (fun k hk => by cases hk) rfl).trans
        (CacheNode.lifts_handleCacheWrite_iff _ key value version)
    · cases h
  | inside a =>
    have htouch : ∀ {t : CacheCluster V} (i key : String), (∀ k, a ≠ .finish k) →
        t.nodes = (s.setNode i ((s.nodes i).touch key)).nodes → VersionsRise s (.inside a) t :=
      fun i key ha hnodes => (versionsRise_iff (fun k hk => ha k (BusAction.inside.inj hk))
        hnodes).mpr (CacheNode.lifts_touch _ key)
    cases stepped h with
    | @readHit i key entry => exact iff_of_true (htouch i key (fun k hk => by cases hk) rfl) rfl
    | @readMiss i key => exact iff_of_true (htouch i key (fun k hk => by cases hk) rfl) rfl
    | @write i key value => exact iff_of_true (htouch i key (fun k hk => by cases hk) rfl) rfl
    | @invalidate i key =>
      exact iff_of_true ((versionsRise_iff (fun k hk => by cases hk) rfl).mpr
        (CacheNode.lifts_invalidate _ key)) rfl
    | @deliver j p hj hstage =>
      refine iff_of_true ?_ rfl
      cases hrequest : p.request with
      | read key =>
        exact (versionsRise_iff (fun k hk => by cases hk) (s.nodes_handle_read j hrequest)).mpr
          (CacheNode.lifts_handleCacheRead _ key)
      | invalidate key version =>
        exact (versionsRise_iff (fun k hk => by cases hk)
          (s.nodes_handle_invalidate j hrequest)).mpr
          (CacheNode.lifts_handleCacheInvalidate _ key version)
    | @found k j call key rest p response hk hop hstage hj hresponse =>
      have hrise : VersionsRise s (.inside (.reply k))
          (s.resumeRead k call key rest (some response)) ↔ (s.nodes call.node).Lifts _ :=
        versionsRise_iff (fun k hk => by cases hk) rfl
      rw [hrise, CacheNode.lifts_fetch_iff]
      simp [installsNewer, hk, hop, hstage, hj, hresponse]
    | @missed k j call key rest p hk hop hstage hj hresponse =>
      refine iff_of_true (versionsRise_same (fun k hk => by cases hk) rfl) ?_
      simp [installsNewer, hk, hop, hstage, hj, hresponse]
    | noReply => exact iff_of_true (versionsRise_same (fun k hk => by cases hk) rfl) rfl
    | giveUp => exact iff_of_true (versionsRise_same (fun k hk => by cases hk) rfl) rfl
    | @finish k call key value tasks hk hop hstage hall =>
      have hself : (s.finishWrite k call key value).nodes call.node =
          (s.nodes call.node).store key value := nodes_setNode_self s call.node _
      have hcondition : s.installsNewer (.inside (.finish k)) =
          (s.nodes call.node).noneAbove key ((s.nodes call.node).version key) := by
        simp [installsNewer, hk, hop]
      rw [hcondition, ← CacheNode.outdoes_store_iff _ key value]
      constructor
      · intro hrise
        rw [← hself]
        exact hrise.written k call key value rfl hk hop
      · intro hout
        have hnodes : (s.finishWrite k call key value).nodes =
            (s.setNode call.node ((s.nodes call.node).store key value)).nodes := rfl
        refine ⟨(lifts_setNode_iff hnodes).mpr ?_,
          fun k' call' key' value' ha hk' hop' => ?_⟩
        · rw [CacheNode.lifts_store_iff, CacheNode.noneAbove_iff]
          rw [CacheNode.outdoes_store_iff, CacheNode.noneAbove_iff] at hout
          exact fun e he => Nat.le_succ_of_le (hout e he)
        · cases ha
          obtain rfl := Option.some.inj (hk.symm.trans hk')
          obtain ⟨rfl, -⟩ := CacheOp.write.inj (hop.symm.trans hop')
          rw [hself]
          exact hout

/-- The versions of a run only go up exactly when nothing older is installed. -/
theorem versions_rise_iff {acts : List (BusAction V)} {s' : CacheCluster V}
    (hrun : Transition.run (busStep cfg) (boot cfg) acts = some s') :
    Transition.EachStep (busStep cfg)
        (fun s a => ∀ s', s.busStep cfg a = some s' → VersionsRise s a s') (boot cfg) acts ↔
      Transition.EachStep (busStep cfg) (fun s a => s.installsNewer a = true) (boot cfg) acts := by
  refine Transition.eachStep_congr (K := fun _ => True) (fun s a t _ hstep => ?_)
    (fun _ _ _ _ _ _ => trivial) trivial hrun
  rw [← versionsRise_step hstep, hstep]
  simp only [Option.some.injEq, forall_eq']

/-! ## Concrete runs -/

/-- `b` fetches the copy of `a`'s write and takes a newer one from a CACHE_WRITE; `a` writes
    again, and `b` fetches that. -/
def newerRun : List (BusAction String) :=
  [.inside (.write "a" "k" "x"), .inside (.deliver 0), .inside (.finish 0),
    .inside (.read "b" "k"), .inside (.deliver 1), .inside (.reply 1),
    .cacheWrite "b" "k" "y" 2, .inside (.write "a" "k" "z"), .inside (.deliver 2),
    .inside (.finish 2), .inside (.invalidate "b" "k"), .inside (.read "b" "k"),
    .inside (.deliver 3), .inside (.reply 3)]

theorem versions_rise_iff_newer :
    ∃ t, Transition.run (busStep cachePair) (boot cachePair) newerRun = some t ∧
      (t.nodes "b").entry "k" = some ⟨"k", "z", .shared, 2⟩ ∧
      Transition.EachStep (busStep cachePair)
        (fun s a => ∀ s', s.busStep cachePair a = some s' → VersionsRise s a s') (boot cachePair)
        newerRun := by
  have hrun : (Transition.run (busStep cachePair) (boot cachePair) newerRun).any (fun t =>
      (t.nodes "b").entry "k" = some ⟨"k", "z", .shared, 2⟩) = true := by
    decide +kernel
  obtain ⟨t, ht, he⟩ := (Option.any_eq_true _ _).mp hrun
  exact ⟨t, ht, of_decide_eq_true he, (versions_rise_iff ht).mpr (by decide +kernel)⟩

/-- `a` writes twice, `b` reads version 2 and writes over it with version 1. -/
theorem write_lowers_version :
    ¬ ∀ (acts : List (BusAction String)) (s' t : CacheCluster String) (e e' : CacheEntry String)
      (k : ℕ), Transition.run (busStep cachePair) (boot cachePair) acts = some s' →
        s'.busStep cachePair (.inside (.finish k)) = some t →
        (s'.nodes "b").entry "k" = some e → (t.nodes "b").entry "k" = some e' →
        e.version ≤ e'.version := by
  intro hclaim
  have hrun : (Transition.run (busStep cachePair) (boot cachePair)
      [.inside (.write "a" "k" "x"), .inside (.deliver 0), .inside (.finish 0),
        .inside (.write "a" "k" "y"), .inside (.deliver 1), .inside (.finish 1),
        .inside (.read "b" "k"), .inside (.deliver 2), .inside (.reply 2),
        .inside (.write "b" "k" "z"), .inside (.deliver 3)]).any (fun s' =>
      (s'.nodes "b").entry "k" = some ⟨"k", "y", .shared, 2⟩ &&
        (s'.busStep cachePair (.inside (.finish 3))).any fun t =>
          (t.nodes "b").entry "k" = some ⟨"k", "z", .modified, 1⟩) = true := by
    decide +kernel
  obtain ⟨s', hs', hrest⟩ := (Option.any_eq_true _ _).mp hrun
  obtain ⟨he, hrest⟩ := Bool.and_eq_true_iff.mp hrest
  obtain ⟨t, ht, he'⟩ := (Option.any_eq_true _ _).mp hrest
  have := hclaim _ s' t _ _ 3 hs' ht (of_decide_eq_true he) (of_decide_eq_true he')
  exact absurd this (by decide)

end CacheCluster

end Pynchronize
