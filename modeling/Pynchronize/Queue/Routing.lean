import Pynchronize.Queue.Md5
import Pynchronize.Queue.Ring

/-!
# Routing depends on membership only

`Owned` ties `ring` and `node_map` to `nodes`. It holds after any calls of
`add_node` and `remove_node` as long as no two virtual keys have one hash, and
what the lookups answer can be read off the set of nodes.
-/

namespace Pynchronize

open Lib

/-! ## Virtual keys -/

theorem colon_notMem_toString (i : ℕ) : ':' ∉ (toString i).toList := by
  intro h
  have hdigit := Nat.isDigit_of_mem_toDigits (by omega) (by omega) (Nat.toList_repr ▸ h)
  simp at hdigit

/-- The last separator of a list can be found again. -/
theorem append_cons_inj_of_notMem_right {α : Type*} [DecidableEq α] {c : α} {a b x y : List α}
    (hx : c ∉ x) (hy : c ∉ y) (h : a ++ c :: x = b ++ c :: y) : a = b ∧ x = y := by
  have hspan : ∀ {a x : List α}, c ∉ x →
      ((a ++ c :: x).reverse.takeWhile (· ≠ c)) = x.reverse := by
    intro a x hx
    rw [List.reverse_append, List.reverse_cons, List.append_assoc,
      List.takeWhile_append_of_pos fun d hd => ?_]
    · simp
    · have : d ∈ x := List.mem_reverse.mp hd
      simp only [ne_eq, decide_eq_true_eq]
      rintro rfl
      exact hx this
  have hxy : x = y := by
    have := congrArg (fun l => l.reverse.takeWhile (· ≠ c)) h
    rw [hspan hx, hspan hy] at this
    exact List.reverse_injective this
  subst hxy
  exact ⟨List.append_cancel_right h, rfl⟩

/-- Nodes and numbers can be read off their virtual keys, whatever the names of the nodes. -/
theorem virtualKey_injective {node node' : String} {i i' : ℕ}
    (h : virtualKey node i = virtualKey node' i') : node = node' ∧ i = i' := by
  have hlist := congrArg String.toList h
  unfold virtualKey at hlist
  simp only [String.toList_append, List.append_assoc] at hlist
  obtain ⟨hnode, hi⟩ := append_cons_inj_of_notMem_right (colon_notMem_toString i)
    (colon_notMem_toString i') hlist
  refine ⟨String.toList_inj.mp hnode, ?_⟩
  have hdigits : Nat.toDigits 10 i = Nat.toDigits 10 i' :=
    Nat.toList_repr.symm.trans (hi.trans Nat.toList_repr)
  rw [← Nat.ofDigitChars_ten_toDigits (n := i), hdigits, Nat.ofDigitChars_ten_toDigits]

/-- No two virtual keys of the given nodes have the same hash. -/
def HashInjective (hash : String → ℕ) (replicas : ℕ) (names : Set String) : Prop :=
  ∀ node ∈ names, ∀ node' ∈ names, ∀ i < replicas, ∀ i' < replicas,
    hash (virtualKey node i) = hash (virtualKey node' i') → virtualKey node i = virtualKey node' i'

theorem HashInjective.eq {hash : String → ℕ} {replicas : ℕ} {names : Set String}
    (h : HashInjective hash replicas names) {node node' : String} (hn : node ∈ names)
    (hn' : node' ∈ names) {i i' : ℕ} (hi : i < replicas) (hi' : i' < replicas)
    (heq : hash (virtualKey node i) = hash (virtualKey node' i')) : node = node' ∧ i = i' :=
  virtualKey_injective (h node hn node' hn' i hi i' hi' heq)

namespace ConsistentHash

variable {hash : String → ℕ} {replicas : ℕ} {names : Set String} {h h' : ConsistentHash}

/-! ## Points of the ring -/

/-- The ring is sorted without repetition and holds the points that `node_map` knows. -/
structure Matched (h : ConsistentHash) : Prop where
  sorted : h.ring.Pairwise (· < ·)
  mem_ring : ∀ x, x ∈ h.ring ↔ (h.nodeMap.get? x).isSome = true

theorem pairwise_orderedInsert {l : List ℕ} (hl : l.Pairwise (· < ·)) {x : ℕ} (hx : x ∉ l) :
    (l.orderedInsert (· ≤ ·) x).Pairwise (· < ·) := by
  have hle : (l.orderedInsert (· ≤ ·) x).Pairwise (· ≤ ·) :=
    (hl.imp fun hlt => hlt.le).orderedInsert x l
  have hnodup : (l.orderedInsert (· ≤ ·) x).Nodup :=
    (List.perm_orderedInsert (· ≤ ·) x l).nodup_iff.mpr
      (List.nodup_cons.mpr ⟨hx, hl.imp fun hlt => hlt.ne⟩)
  exact hle.imp₂ (fun _ _ hle hne => lt_of_le_of_ne hle hne) hnodup

theorem Matched.addVirtual (hm : Matched h) {node : String} {i : ℕ}
    (hfresh : h.nodeMap.get? (hash (virtualKey node i)) = none) :
    Matched (h.addVirtual hash node i) where
  sorted := by
    refine pairwise_orderedInsert hm.sorted fun hmem => ?_
    have := (hm.mem_ring _).mp hmem
    rw [hfresh] at this
    cases this
  mem_ring x := by
    show x ∈ h.ring.orderedInsert (· ≤ ·) _ ↔ ((h.nodeMap.set _ node).get? x).isSome = true
    rw [List.mem_orderedInsert, Dict.get?_set, hm.mem_ring]
    split
    · rename_i heq
      simp [heq]
    · rename_i hne
      constructor
      · rintro (heq | hold)
        · exact absurd heq.symm hne
        · exact hold
      · exact Or.inr

theorem removeVirtual_eq {node : String} {i : ℕ} (hm : Matched h)
    (hin : (h.nodeMap.get? (hash (virtualKey node i))).isSome = true) :
    h.removeVirtual hash node i = .ok { h with
      ring := h.ring.erase (hash (virtualKey node i))
      nodeMap := h.nodeMap.erase (hash (virtualKey node i)) } := by
  unfold ConsistentHash.removeVirtual
  dsimp only
  rw [if_pos ((hm.mem_ring _).mpr hin), if_pos]
  exact hin

theorem Matched.erase (hm : Matched h) (x : ℕ) :
    Matched { h with ring := h.ring.erase x, nodeMap := h.nodeMap.erase x } where
  sorted := hm.sorted.sublist (List.erase_sublist)
  mem_ring y := by
    have hnodup : h.ring.Nodup := hm.sorted.imp fun hlt => hlt.ne
    show y ∈ h.ring.erase x ↔ ((h.nodeMap.erase x).get? y).isSome = true
    rw [hnodup.mem_erase_iff, Dict.get?_erase, hm.mem_ring]
    split
    · rename_i heq
      simp [heq]
    · rename_i hne
      simp [hne]

/-! ## Adding a node -/

/-- The points of `node` with a number below `n` go to `node`, the others stay. -/
structure Gains (hash : String → ℕ) (node : String) (n : ℕ) (h h' : ConsistentHash) : Prop where
  matched : Matched h'
  replicas : h'.replicas = h.replicas
  nodes : h'.nodes = h.nodes
  own : ∀ i < n, h'.nodeMap.get? (hash (virtualKey node i)) = some node
  other : ∀ x, (∀ i < n, hash (virtualKey node i) ≠ x) → h'.nodeMap.get? x = h.nodeMap.get? x

variable (hash) in
theorem gains_addVirtual (node : String) (hm : Matched h) {n : ℕ}
    (hinj : ∀ i < n, ∀ j < n, hash (virtualKey node i) = hash (virtualKey node j) → i = j)
    (hfresh : ∀ i < n, h.nodeMap.get? (hash (virtualKey node i)) = none) :
    Gains hash node n h ((List.range n).foldl (addVirtual hash node) h) := by
  induction n with
  | zero => exact ⟨hm, rfl, rfl, fun i hi => absurd hi (Nat.not_lt_zero i), fun _ _ => rfl⟩
  | succ n ih =>
    have hlt : ∀ {i}, i < n → i < n + 1 := Nat.lt_succ_of_lt
    have hpart := ih (fun i hi j hj => hinj i (hlt hi) j (hlt hj)) fun i hi => hfresh i (hlt hi)
    rw [List.range_succ, List.foldl_append]
    generalize (List.range n).foldl (addVirtual hash node) h = part at hpart ⊢
    have hnew : ∀ i < n, hash (virtualKey node i) ≠ hash (virtualKey node n) := by
      intro i hi heq
      have := hinj i (hlt hi) n (Nat.lt_succ_self n) heq
      omega
    have hnone : part.nodeMap.get? (hash (virtualKey node n)) = none := by
      rw [hpart.other _ hnew]
      exact hfresh n (Nat.lt_succ_self n)
    have hget : ∀ x, (part.addVirtual hash node n).nodeMap.get? x =
        if hash (virtualKey node n) = x then some node else part.nodeMap.get? x := fun x =>
      Dict.get?_set part.nodeMap _ x node
    refine ⟨hpart.matched.addVirtual hnone, hpart.replicas, hpart.nodes, fun i hi => ?_,
      fun x hx => ?_⟩
    · show (part.addVirtual hash node n).nodeMap.get? _ = _
      rw [hget]
      split
      · rfl
      · rename_i hne
        refine hpart.own i (lt_of_le_of_ne (Nat.le_of_lt_succ hi) ?_)
        rintro rfl
        exact hne rfl
    · show (part.addVirtual hash node n).nodeMap.get? _ = _
      rw [hget, if_neg fun heq => hx n (Nat.lt_succ_self n) heq]
      exact hpart.other x fun i hi => hx i (hlt hi)

/-! ## Removing a node -/

structure Loses (hash : String → ℕ) (node : String) (n : ℕ) (h h' : ConsistentHash) : Prop where
  matched : Matched h'
  replicas : h'.replicas = h.replicas
  nodes : h'.nodes = h.nodes
  own : ∀ i < n, h'.nodeMap.get? (hash (virtualKey node i)) = none
  other : ∀ x, (∀ i < n, hash (virtualKey node i) ≠ x) → h'.nodeMap.get? x = h.nodeMap.get? x

variable (hash) in
theorem loses_removeVirtual (node : String) (hm : Matched h) {n : ℕ}
    (hinj : ∀ i < n, ∀ j < n, hash (virtualKey node i) = hash (virtualKey node j) → i = j)
    (hin : ∀ i < n, (h.nodeMap.get? (hash (virtualKey node i))).isSome = true) :
    ∃ h', (List.range n).foldlM (removeVirtual hash node) h = .ok h' ∧
      Loses hash node n h h' := by
  induction n with
  | zero => exact ⟨h, rfl, hm, rfl, rfl, fun i hi => absurd hi (Nat.not_lt_zero i), fun _ _ => rfl⟩
  | succ n ih =>
    have hlt : ∀ {i}, i < n → i < n + 1 := Nat.lt_succ_of_lt
    obtain ⟨part, hrun, hpart⟩ :=
      ih (fun i hi j hj => hinj i (hlt hi) j (hlt hj)) fun i hi => hin i (hlt hi)
    have hnew : ∀ i < n, hash (virtualKey node i) ≠ hash (virtualKey node n) := by
      intro i hi heq
      have := hinj i (hlt hi) n (Nat.lt_succ_self n) heq
      omega
    have hsome : (part.nodeMap.get? (hash (virtualKey node n))).isSome = true := by
      rw [hpart.other _ hnew]
      exact hin n (Nat.lt_succ_self n)
    have hremove := removeVirtual_eq hpart.matched hsome
    refine ⟨_, ?_, hpart.matched.erase (hash (virtualKey node n)), hpart.replicas, hpart.nodes,
      fun i hi => ?_, fun x hx => ?_⟩
    · rw [List.range_succ, List.foldlM_append, hrun]
      show (List.foldlM _ part [n] : Except ConsistentHash ConsistentHash) = _
      rw [List.foldlM_cons, hremove]
      rfl
    · show (part.nodeMap.erase _).get? _ = none
      rw [Dict.get?_erase]
      split
      · rfl
      · rename_i hne
        refine hpart.own i (lt_of_le_of_ne (Nat.le_of_lt_succ hi) ?_)
        rintro rfl
        exact hne rfl
    · show (part.nodeMap.erase _).get? _ = _
      rw [Dict.get?_erase, if_neg fun heq => hx n (Nat.lt_succ_self n) heq.symm]
      exact hpart.other x fun i hi => hx i (hlt hi)

/-! ## The ring of a set of nodes -/

/-- The points are the hashes of the virtual keys of the nodes, and each belongs to its node. -/
structure Owned (hash : String → ℕ) (h : ConsistentHash) : Prop where
  matched : Matched h
  owner : ∀ x node, h.nodeMap.get? x = some node ↔
    node ∈ h.nodes ∧ ∃ i < h.replicas, hash (virtualKey node i) = x

theorem owned_empty (hash : String → ℕ) (replicas : ℕ) :
    Owned hash { replicas := replicas } where
  matched := ⟨List.Pairwise.nil, fun x => by simp⟩
  owner x node := by simp

theorem Owned.addNode (ho : Owned hash h) (hinj : HashInjective hash h.replicas names)
    (hnames : ∀ node ∈ h.nodes, node ∈ names) {node : String} (hn : node ∈ names) :
    Owned hash (h.addNode hash node) ∧ (h.addNode hash node).nodes = insert node h.nodes ∧
      (h.addNode hash node).replicas = h.replicas := by
  unfold ConsistentHash.addNode
  split
  · rename_i hin
    exact ⟨ho, (Finset.insert_eq_of_mem hin).symm, rfl⟩
  · rename_i hout
    have hm : Matched { h with nodes := insert node h.nodes } := ⟨ho.matched.1, ho.matched.2⟩
    have hgains := gains_addVirtual hash node hm (n := h.replicas)
      (fun i hi j hj heq => (hinj.eq hn hn hi hj heq).2) fun i hi => by
        refine Option.eq_none_iff_forall_ne_some.mpr fun other hget => ?_
        obtain ⟨hother, j, hj, heq⟩ := (ho.owner _ other).mp hget
        obtain ⟨rfl, -⟩ := hinj.eq (hnames other hother) hn hj hi heq
        exact hout hother
    generalize (List.range h.replicas).foldl (ConsistentHash.addVirtual hash node)
      { h with nodes := insert node h.nodes } = added at hgains ⊢
    refine ⟨⟨hgains.matched, fun x other => ?_⟩, hgains.nodes, hgains.replicas⟩
    rw [hgains.nodes, hgains.replicas]
    show _ ↔ other ∈ insert node h.nodes ∧ ∃ i < h.replicas, _
    by_cases hpoint : ∃ i < h.replicas, hash (virtualKey node i) = x
    · obtain ⟨i, hi, rfl⟩ := hpoint
      rw [hgains.own i hi]
      constructor
      · intro heq
        obtain rfl := Option.some.inj heq
        exact ⟨Finset.mem_insert_self .., i, hi, rfl⟩
      · rintro ⟨hother, j, hj, heq⟩
        rcases Finset.mem_insert.mp hother with rfl | hold
        · rfl
        · obtain ⟨rfl, -⟩ := hinj.eq (hnames other hold) hn hj hi heq
          rfl
    · have hnot : ∀ i < h.replicas, hash (virtualKey node i) ≠ x := fun i hi heq =>
        hpoint ⟨i, hi, heq⟩
      rw [hgains.other x hnot]
      refine (ho.owner x other).trans ⟨fun ⟨hold, hi⟩ => ⟨Finset.mem_insert_of_mem hold, hi⟩, ?_⟩
      rintro ⟨hother, i, hi, heq⟩
      rcases Finset.mem_insert.mp hother with rfl | hold
      · exact absurd heq (hnot i hi)
      · exact ⟨hold, i, hi, heq⟩

theorem Owned.removeNode (ho : Owned hash h) (hinj : HashInjective hash h.replicas names)
    (hnames : ∀ node ∈ h.nodes, node ∈ names) (node : String) :
    ∃ h', h.removeNode hash node = .ok h' ∧ Owned hash h' ∧ h'.nodes = h.nodes.erase node ∧
      h'.replicas = h.replicas := by
  unfold ConsistentHash.removeNode
  split
  · rename_i hin
    have hn := hnames node hin
    have hm : Matched { h with nodes := h.nodes.erase node } := ⟨ho.matched.1, ho.matched.2⟩
    obtain ⟨h', hrun, hloses⟩ := loses_removeVirtual hash node hm
      (n := h.replicas) (fun i hi j hj heq => (hinj.eq hn hn hi hj heq).2) fun i hi =>
        Option.isSome_iff_exists.mpr ⟨node, (ho.owner _ node).mpr ⟨hin, i, hi, rfl⟩⟩
    refine ⟨h', hrun, ⟨hloses.matched, fun x other => ?_⟩, hloses.nodes, hloses.replicas⟩
    rw [hloses.nodes, hloses.replicas]
    show _ ↔ other ∈ h.nodes.erase node ∧ ∃ i < h.replicas, _
    rw [Finset.mem_erase]
    by_cases hpoint : ∃ i < h.replicas, hash (virtualKey node i) = x
    · obtain ⟨i, hi, rfl⟩ := hpoint
      rw [hloses.own i hi]
      constructor
      · intro heq
        cases heq
      rintro ⟨⟨hne, hother⟩, j, hj, heq⟩
      exact absurd (hinj.eq (hnames other hother) hn hj hi heq).1 hne
    · have hnot : ∀ i < h.replicas, hash (virtualKey node i) ≠ x := fun i hi heq =>
        hpoint ⟨i, hi, heq⟩
      rw [hloses.other x hnot]
      refine (ho.owner x other).trans ⟨fun ⟨hold, hi⟩ => ⟨⟨?_, hold⟩, hi⟩, fun ⟨hold, hi⟩ =>
        ⟨hold.2, hi⟩⟩
      rintro rfl
      exact hpoint hi
  · rename_i hout
    exact ⟨h, rfl, ho, (Finset.erase_eq_of_notMem hout).symm, rfl⟩

/-! ## Any sequence of calls -/

theorem Owned.step (ho : Owned hash h) (hinj : HashInjective hash h.replicas names)
    (hnames : ∀ node ∈ h.nodes, node ∈ names) {op : RingOp} (hop : op.node ∈ names) :
    ∃ h', h.step hash op = some h' ∧ Owned hash h' ∧ h'.replicas = h.replicas ∧
      ∀ node ∈ h'.nodes, node ∈ names := by
  cases op with
  | addNode node =>
    have hop : node ∈ names := hop
    obtain ⟨hadd, hnodes, hreplicas⟩ := ho.addNode hinj hnames hop
    refine ⟨_, rfl, hadd, hreplicas, fun other hother => ?_⟩
    rw [hnodes] at hother
    rcases Finset.mem_insert.mp hother with rfl | hold
    · exact hop
    · exact hnames other hold
  | removeNode node =>
    obtain ⟨h', hremove, hrest, hnodes, hreplicas⟩ := ho.removeNode hinj hnames node
    refine ⟨h', congrArg Except.toOption hremove, hrest, hreplicas, fun other hother => ?_⟩
    rw [hnodes] at hother
    exact hnames other (Finset.mem_of_mem_erase hother)

theorem Owned.run (ho : Owned hash h) (hinj : HashInjective hash h.replicas names)
    (hnames : ∀ node ∈ h.nodes, node ∈ names) {ops : List RingOp}
    (hops : ∀ op ∈ ops, op.node ∈ names) :
    ∃ h', h.run hash ops = some h' ∧ Owned hash h' ∧ h'.replicas = h.replicas ∧
      ∀ node ∈ h'.nodes, node ∈ names := by
  induction ops generalizing h with
  | nil => exact ⟨h, rfl, ho, rfl, hnames⟩
  | cons op rest ih =>
    obtain ⟨part, hstep, hpart, hreplicas, hpartNames⟩ :=
      ho.step hinj hnames (hops op (List.mem_cons_self ..))
    obtain ⟨h', hrun, hrest, hsame, hrestNames⟩ := ih hpart (hreplicas ▸ hinj) hpartNames
      fun op' hop' => hops op' (List.mem_cons_of_mem _ hop')
    refine ⟨h', ?_, hrest, hsame.trans hreplicas, hrestNames⟩
    show (h.step hash op).bind _ = _
    rw [hstep]
    exact hrun

/-- `__init__` calls `add_node` for its nodes. -/
theorem new_eq_run (hash : String → ℕ) (nodes : List String) (h : ConsistentHash) :
    h.run hash (nodes.map .addNode) = some (nodes.foldl (ConsistentHash.addNode hash) h) := by
  induction nodes generalizing h with
  | nil => rfl
  | cons node rest ih => exact ih (h.addNode hash node)

theorem Owned.new (hinj : HashInjective hash replicas names) {nodes : List String}
    (hnodes : ∀ node ∈ nodes, node ∈ names) :
    Owned hash (new hash nodes replicas) ∧ (new hash nodes replicas).replicas = replicas ∧
      ∀ node ∈ (new hash nodes replicas).nodes, node ∈ names := by
  have hops : ∀ op ∈ nodes.map RingOp.addNode, op.node ∈ names := by
    intro op hop
    obtain ⟨node, hnode, rfl⟩ := List.mem_map.mp hop
    exact hnodes node hnode
  obtain ⟨h', hrun, ho, hreplicas, hnames⟩ := (owned_empty hash replicas).run hinj
    (fun node hnode => absurd hnode (Finset.notMem_empty node)) hops
  rw [new_eq_run] at hrun
  obtain rfl := Option.some.inj hrun
  exact ⟨ho, hreplicas, hnames⟩

/-- What any calls lead to. -/
theorem exists_owned (hinj : HashInjective hash replicas names) {nodes : List String}
    {ops : List RingOp} (hnodes : ∀ node ∈ nodes, node ∈ names)
    (hops : ∀ op ∈ ops, op.node ∈ names) :
    ∃ h, (new hash nodes replicas).run hash ops = some h ∧ Owned hash h ∧
      h.replicas = replicas ∧ ∀ node ∈ h.nodes, node ∈ names := by
  obtain ⟨hnew, hsame, hnames⟩ := Owned.new hinj hnodes
  obtain ⟨h, hrun, ho, hr, hin⟩ := hnew.run (hsame.symm ▸ hinj) hnames hops
  exact ⟨h, hrun, ho, hr.trans hsame, hin⟩

/-! ## Lookups -/

theorem Owned.nodeMap_eq (ho : Owned hash h) (ho' : Owned hash h') (hr : h.replicas = h'.replicas)
    (hn : h.nodes = h'.nodes) : h.nodeMap.get? = h'.nodeMap.get? := by
  funext x
  refine Option.ext fun node => ?_
  rw [ho.owner, ho'.owner, hr, hn]

theorem Owned.ring_eq (ho : Owned hash h) (ho' : Owned hash h') (hr : h.replicas = h'.replicas)
    (hn : h.nodes = h'.nodes) : h.ring = h'.ring := by
  have hmem : ∀ x, x ∈ h.ring ↔ x ∈ h'.ring := by
    intro x
    rw [ho.matched.mem_ring, ho'.matched.mem_ring, ho.nodeMap_eq ho' hr hn]
  exact ho.matched.sorted.eq_of_mem_iff ho'.matched.sorted hmem

/-- The lookups read `ring`, `node_map` and the number of nodes only. -/
theorem collectNodes_congr (hring : h.ring = h'.ring) (hmap : h.nodeMap.get? = h'.nodeMap.get?)
    (hn : h.nodes = h'.nodes) (count fuel idx : ℕ) (result : List String) :
    h.collectNodes count fuel idx result = h'.collectNodes count fuel idx result := by
  induction fuel generalizing idx result with
  | zero => rw [collectNodes, collectNodes, hn]
  | succ fuel ih => rw [collectNodes, collectNodes, hring, hmap, hn]; simp only [ih]

theorem Owned.lookups_eq (ho : Owned hash h) (ho' : Owned hash h') (hr : h.replicas = h'.replicas)
    (hn : h.nodes = h'.nodes) (key : String) :
    h.getNode hash key = h'.getNode hash key ∧
      ∀ count, h.getNodesForKey hash key count = h'.getNodesForKey hash key count := by
  have hring := ho.ring_eq ho' hr hn
  have hmap := ho.nodeMap_eq ho' hr hn
  refine ⟨?_, fun count => ?_⟩
  · unfold getNode
    rw [hring, hmap]
  · unfold getNodesForKey
    rw [collectNodes_congr hring hmap hn, hring]

end ConsistentHash

open ConsistentHash in
/-- After any calls, none of which raises, the ring is that of the nodes that are in, and so are
    all answers. -/
theorem routing_of_membership {hash : String → ℕ} {replicas : ℕ} {names : Set String}
    (hinj : HashInjective hash replicas names) :
    (∀ (nodes : List String) (ops : List RingOp), (∀ node ∈ nodes, node ∈ names) →
      (∀ op ∈ ops, op.node ∈ names) → ∃ h, (new hash nodes replicas).run hash ops = some h ∧
        h.ring.Pairwise (· < ·) ∧
        (∀ x, x ∈ h.ring ↔ ∃ node ∈ h.nodes, ∃ i < replicas, hash (virtualKey node i) = x) ∧
        ∀ x node, h.nodeMap.get? x = some node ↔
          node ∈ h.nodes ∧ ∃ i < replicas, hash (virtualKey node i) = x) ∧
    ∀ (nodes nodes' : List String) (ops ops' : List RingOp) (h h' : ConsistentHash),
      (∀ node ∈ nodes ++ nodes', node ∈ names) → (∀ op ∈ ops ++ ops', op.node ∈ names) →
      (new hash nodes replicas).run hash ops = some h →
      (new hash nodes' replicas).run hash ops' = some h' → h.nodes = h'.nodes →
      ∀ key, h.getNode hash key = h'.getNode hash key ∧
        ∀ count, h.getNodesForKey hash key count = h'.getNodesForKey hash key count := by
  refine ⟨fun nodes ops hnodes hops => ?_,
    fun nodes nodes' ops ops' h h' hnodes hops hrun hrun' hn => ?_⟩
  · obtain ⟨h, hrun, ho, rfl, -⟩ := exists_owned hinj hnodes hops
    refine ⟨h, hrun, ho.matched.sorted, fun x => ?_, ho.owner⟩
    rw [ho.matched.mem_ring, Option.isSome_iff_exists]
    constructor
    · rintro ⟨node, hnode⟩
      obtain ⟨hin, hpoint⟩ := (ho.owner x node).mp hnode
      exact ⟨node, hin, hpoint⟩
    · rintro ⟨node, hin, hpoint⟩
      exact ⟨node, (ho.owner x node).mpr ⟨hin, hpoint⟩⟩
  · obtain ⟨g, hg, ho, hr, -⟩ := exists_owned hinj
      (fun node hnode => hnodes node (List.mem_append_left nodes' hnode))
      fun op hop => hops op (List.mem_append_left ops' hop)
    obtain ⟨g', hg', ho', hr', -⟩ := exists_owned hinj
      (fun node hnode => hnodes node (List.mem_append_right nodes hnode))
      fun op hop => hops op (List.mem_append_right ops hop)
    obtain rfl := Option.some.inj (hg.symm.trans hrun)
    obtain rfl := Option.some.inj (hg'.symm.trans hrun')
    exact ho.lookups_eq ho' (hr.trans hr'.symm) hn

theorem hashInjective_pair : HashInjective md5 2 {"a", "b"} := by
  rintro node (rfl | rfl) node' (rfl | rfl)
  all_goals decide +kernel

open ConsistentHash in
/-- Two histories of the nodes `a` and `b`. -/
theorem routing_of_membership_histories :
    ∃ h h', (new md5 ["a", "b"] 2).run md5 [] = some h ∧
      (new md5 ["b"] 2).run md5 [.addNode "a", .removeNode "b", .addNode "b"] =
        some h' ∧ h.ring ≠ [] ∧ ∀ key, h.getNode md5 key = h'.getNode md5 key := by
  have hrun : ((new md5 ["a", "b"] 2).run md5 []).any (fun h =>
      decide (h.ring ≠ []) && ((new md5 ["b"] 2).run md5
        [.addNode "a", .removeNode "b", .addNode "b"]).any fun h' =>
          decide (h.nodes = h'.nodes)) = true := by
    decide +kernel
  obtain ⟨h, hh, hrest⟩ := (Option.any_eq_true _ _).mp hrun
  obtain ⟨hring, hrest⟩ := Bool.and_eq_true_iff.mp hrest
  obtain ⟨h', hh', hn⟩ := (Option.any_eq_true _ _).mp hrest
  refine ⟨h, h', hh, hh', of_decide_eq_true hring, fun key => ?_⟩
  exact ((routing_of_membership hashInjective_pair).2 _ _ _ _ h h' (by simp) (by simp [RingOp.node])
    hh hh' (of_decide_eq_true hn) key).1

end Pynchronize
