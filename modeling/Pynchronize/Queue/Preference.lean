import Pynchronize.Lib.Clockwise
import Pynchronize.Queue.Routing

/-!
# Preference lists

The loop of `get_nodes_for_key` walks around the ring and collects the nodes it
has not seen. `preference` are all of them; how the walk meets them can be said
without the ring, so the list of a smaller set of nodes is a part of the list.
-/

namespace Pynchronize

open Lib

namespace ConsistentHash

variable {hash : String → ℕ} {replicas : ℕ} {names : Set String} {h h' : ConsistentHash}

/-- The places of the virtual nodes. -/
def points (hash : String → ℕ) (replicas : ℕ) (node : String) : Set ℕ :=
  {x | ∃ i < replicas, hash (virtualKey node i) = x}

/-- Clockwise from `start`, the first virtual node of `a` comes before that of `b`. -/
def Ahead (hash : String → ℕ) (replicas start : ℕ) (a b : String) : Prop :=
  FirstBefore start (points hash replicas) a b

/-- The nodes of some points, each where its first point is. -/
def met (h : ConsistentHash) (points : List ℕ) : List String :=
  (points.filterMap h.nodeMap.get?).eraseDups

/-- The nodes in the order in which the loop meets them. -/
def preference (hash : String → ℕ) (h : ConsistentHash) (key : String) : List String :=
  h.met (h.ring.rotate (bisectLeft h.ring (hash key)))

/-! ## Who is met -/

theorem Owned.isSome (ho : Owned hash h) {x : ℕ} (hx : x ∈ h.ring) :
    ∃ node ∈ h.nodes, h.nodeMap.get? x = some node := by
  obtain ⟨node, hnode⟩ := Option.isSome_iff_exists.mp ((ho.matched.mem_ring x).mp hx)
  exact ⟨node, ((ho.owner x node).mp hnode).1, hnode⟩

theorem Owned.mem_points (ho : Owned hash h) {x : ℕ} {node : String} :
    h.nodeMap.get? x = some node ↔ node ∈ h.nodes ∧ x ∈ points hash h.replicas node :=
  ho.owner x node

theorem Owned.mem_preference (ho : Owned hash h) (hr : 1 ≤ h.replicas) (key node : String) :
    node ∈ h.preference hash key ↔ node ∈ h.nodes := by
  unfold preference met
  rw [List.mem_eraseDups, List.mem_filterMap]
  constructor
  · rintro ⟨x, -, hx⟩
    exact (ho.mem_points.mp hx).1
  · intro hnode
    have hget := ho.mem_points.mpr ⟨hnode, 0, hr, rfl⟩
    refine ⟨_, List.mem_rotate.mpr ((ho.matched.mem_ring _).mpr ?_), hget⟩
    rw [hget]
    rfl

theorem Owned.pairwise_preference (ho : Owned hash h) (key : String) :
    (h.preference hash key).Pairwise (Ahead hash h.replicas (hash key)) := by
  refine (pairwise_eraseDups h.nodeMap.get?
    (pairwise_rotate ho.matched.sorted (hash key))).imp_of_mem fun {a b} _ hb hab => ?_
  obtain ⟨x, -, hx, hall⟩ := hab
  obtain ⟨y, -, hy⟩ := List.mem_filterMap.mp (List.mem_eraseDups.mp hb)
  have hbnode := (ho.mem_points.mp hy).1
  refine ⟨x, (ho.mem_points.mp hx).2, fun z hz => ?_⟩
  have hget := ho.mem_points.mpr ⟨hbnode, hz⟩
  refine hall z (List.mem_rotate.mpr ((ho.matched.mem_ring z).mpr ?_)) hget
  rw [hget]
  rfl

theorem Owned.nodup_preference (ho : Owned hash h) (key : String) :
    (h.preference hash key).Nodup :=
  (ho.pairwise_preference key).imp fun {a b} hab heq => by
    subst heq
    exact hab.asymm hab

theorem Owned.length_preference (ho : Owned hash h) (hr : 1 ≤ h.replicas) (key : String) :
    (h.preference hash key).length = h.nodes.card := by
  rw [← List.toFinset_card_of_nodup (ho.nodup_preference key)]
  congr 1
  ext node
  rw [List.mem_toFinset, ho.mem_preference hr]

/-- The order of the first virtual nodes determines the list. -/
theorem Owned.preference_unique (ho : Owned hash h) (hr : 1 ≤ h.replicas) {key : String}
    {l : List String} (hl : l.Pairwise (Ahead hash h.replicas (hash key)))
    (hmem : ∀ node, node ∈ l ↔ node ∈ h.nodes) : h.preference hash key = l := by
  have hnodup : l.Nodup := hl.imp fun {a b} hab heq => by
    subst heq
    exact hab.asymm hab
  have hperm : (h.preference hash key).Perm l :=
    (List.perm_ext_iff_of_nodup (ho.nodup_preference key) hnodup).mpr fun node => by
      rw [ho.mem_preference hr, hmem]
  exact hperm.eq_of_pairwise (fun a b _ _ hab hba => absurd hba hab.asymm)
    (ho.pairwise_preference key) hl

/-! ## The loop -/

theorem exists_met_append (h : ConsistentHash) (visited todo : List ℕ) :
    ∃ rest, h.met (visited ++ todo) = h.met visited ++ rest := by
  unfold met
  rw [List.filterMap_append, List.eraseDups_append]
  exact ⟨_, rfl⟩

theorem met_concat {visited : List ℕ} {x : ℕ} {node : String} (hx : h.nodeMap.get? x = some node) :
    h.met (visited ++ [x]) = if node ∈ h.met visited then h.met visited
      else h.met visited ++ [node] := by
  unfold met
  rw [List.filterMap_append, List.filterMap_cons_some hx, List.filterMap_nil, eraseDups_concat]

/-- When the loop ends, what it has collected is the answer. -/
theorem Owned.met_eq_take (ho : Owned hash h) (hr : 1 ≤ h.replicas) {key : String}
    {visited todo : List ℕ} {count : ℕ}
    (hwalk : h.ring.rotate (bisectLeft h.ring (hash key)) = visited ++ todo)
    (hcount : (h.met visited).length ≤ count)
    (hend : ¬ ((h.met visited).length < count ∧ (h.met visited).length < h.nodes.card)) :
    h.met visited = (h.preference hash key).take count := by
  obtain ⟨rest, hrest⟩ := h.exists_met_append visited todo
  have hpreference : h.preference hash key = h.met visited ++ rest := by
    unfold preference
    rw [hwalk, hrest]
  have hlength := ho.length_preference hr key
  rw [hpreference, List.length_append] at hlength
  rw [hpreference]
  by_cases hfull : (h.met visited).length = count
  · rw [← hfull, List.take_left]
  · have hnil : rest = [] := List.length_eq_zero_iff.mp (by omega)
    rw [hnil, List.append_nil, List.take_of_length_le hcount]

/-- Where the next point of a walk stands in the ring. -/
theorem getElem?_of_walk {start x : ℕ} {visited todo : List ℕ}
    (hwalk : h.ring.rotate start = visited ++ x :: todo) :
    x ∈ h.ring ∧ h.ring[(visited.length + start) % h.ring.length]? = some x := by
  have hlength := congrArg List.length hwalk
  rw [List.length_rotate, List.length_append, List.length_cons] at hlength
  refine ⟨?_, ?_⟩
  · rw [← List.mem_rotate, hwalk]
    exact List.mem_append_right _ (List.mem_cons_self ..)
  · rw [← List.getElem?_rotate (by omega), hwalk]
    simp

/-- The rest of the walk, with `todo` still to be visited. -/
theorem Owned.collectNodes_eq (ho : Owned hash h) (hr : 1 ≤ h.replicas) {key : String}
    {count : ℕ} {visited todo : List ℕ}
    (hwalk : h.ring.rotate (bisectLeft h.ring (hash key)) = visited ++ todo) {idx : ℕ}
    (hidx : idx ≤ h.ring.length)
    (hmod : idx % h.ring.length =
      (visited.length + bisectLeft h.ring (hash key)) % h.ring.length)
    (hcount : (h.met visited).length ≤ count) :
    h.collectNodes count todo.length idx (h.met visited) =
      some ((h.preference hash key).take count) := by
  induction todo generalizing visited idx with
  | nil =>
    have hall : h.met visited = h.preference hash key := by
      unfold preference
      rw [hwalk, List.append_nil]
    have hend : ¬ ((h.met visited).length < count ∧ (h.met visited).length < h.nodes.card) := by
      rw [hall, ho.length_preference hr]
      omega
    rw [List.length_nil, collectNodes, if_neg hend, ho.met_eq_take hr hwalk hcount hend]
  | cons x todo ih =>
    rw [List.length_cons, collectNodes]
    split
    · rename_i hmore
      obtain ⟨hx, hget⟩ := getElem?_of_walk hwalk
      rw [← hmod] at hget
      obtain ⟨node, -, hnode⟩ := ho.isSome hx
      have hpos : 0 < h.ring.length := List.length_pos_of_mem hx
      have hfirst : (if idx ≥ h.ring.length then 0 else idx) = idx % h.ring.length := by
        split
        · rename_i hge
          rw [Nat.le_antisymm hidx hge, Nat.mod_self]
        · rename_i hlt
          exact (Nat.mod_eq_of_lt (by omega)).symm
      have hbind : (h.ring[idx % h.ring.length]?).bind h.nodeMap.get? = some node := by
        rw [hget]
        exact hnode
      dsimp only
      rw [hfirst, hbind]
      dsimp only
      rw [← met_concat hnode]
      refine ih (by rw [hwalk, List.append_assoc]; rfl) (Nat.mod_lt idx hpos) ?_ ?_
      · rw [← Nat.mod_add_mod, Nat.mod_mod, hmod, List.length_append, List.length_singleton,
          Nat.mod_add_mod]
        congr 1
        omega
      · rw [met_concat hnode]
        split
        · exact hcount
        · rw [List.length_append, List.length_singleton]
          omega
    · rename_i hend
      rw [ho.met_eq_take hr hwalk hcount hend]

/-- One turn around the ring is enough. -/
theorem Owned.getNodesForKey_eq (ho : Owned hash h) (hr : 1 ≤ h.replicas) (key : String)
    (count : ℕ) :
    h.getNodesForKey hash key count = some ((h.preference hash key).take count) := by
  have hle : bisectLeft h.ring (hash key) ≤ h.ring.length :=
    (List.takeWhile_sublist _).length_le
  unfold getNodesForKey
  split
  · rename_i hring
    unfold preference
    rw [hring, List.rotate_nil]
    exact congrArg some List.take_nil.symm
  · have hwalk : h.ring.rotate (bisectLeft h.ring (hash key)) =
        [] ++ h.ring.rotate (bisectLeft h.ring (hash key)) := rfl
    have hloop : h.collectNodes count (h.ring.rotate (bisectLeft h.ring (hash key))).length
        (bisectLeft h.ring (hash key)) (h.met []) = some ((h.preference hash key).take count) :=
      ho.collectNodes_eq hr hwalk hle (by rw [List.length_nil, Nat.zero_add]) (Nat.zero_le _)
    rw [List.length_rotate] at hloop
    exact hloop

/-- The first node on the walk. -/
theorem Owned.getNode_eq (ho : Owned hash h) (key : String) :
    h.getNode hash key = some (h.preference hash key).head? := by
  have hle : bisectLeft h.ring (hash key) ≤ h.ring.length :=
    (List.takeWhile_sublist _).length_le
  unfold getNode
  split
  · rename_i hring
    unfold preference
    rw [hring]
    rfl
  · rename_i hring
    have hpos : 0 < h.ring.length := List.length_pos_iff.mpr hring
    have hfirst : (if bisectLeft h.ring (hash key) = h.ring.length then 0
        else bisectLeft h.ring (hash key)) = bisectLeft h.ring (hash key) % h.ring.length := by
      split
      · rename_i heq
        rw [heq, Nat.mod_self]
      · exact (Nat.mod_eq_of_lt (by omega)).symm
    dsimp only
    rw [hfirst]
    cases hwalk : h.ring.rotate (bisectLeft h.ring (hash key)) with
    | nil =>
      have := congrArg List.length hwalk
      rw [List.length_rotate, List.length_nil] at this
      omega
    | cons x rest =>
      obtain ⟨hx, hget⟩ := getElem?_of_walk (hwalk.trans (List.nil_append _).symm)
      rw [List.length_nil, Nat.zero_add] at hget
      obtain ⟨node, -, hnode⟩ := ho.isSome hx
      have hhead : (h.preference hash key).head? = some node := by
        unfold preference met
        rw [hwalk, List.filterMap_cons_some hnode, List.eraseDups_cons]
        rfl
      rw [hget, hhead, Option.bind_some, hnode, Option.map_some]

/-! ## Other sets of nodes -/

/-- The others keep their order. -/
theorem Owned.preference_erase (ho : Owned hash h) (ho' : Owned hash h')
    (hr : 1 ≤ h.replicas) (hreplicas : h'.replicas = h.replicas) {node : String}
    (hnodes : h'.nodes = h.nodes.erase node) (key : String) :
    h'.preference hash key = (h.preference hash key).erase node := by
  refine ho'.preference_unique (hreplicas.symm ▸ hr) ?_ fun other => ?_
  · rw [hreplicas]
    exact (ho.pairwise_preference key).sublist List.erase_sublist
  · rw [(ho.nodup_preference key).mem_erase_iff, ho.mem_preference hr, hnodes, Finset.mem_erase]

theorem Owned.getNode_erase (ho : Owned hash h) (ho' : Owned hash h') (hr : 1 ≤ h.replicas)
    (hreplicas : h'.replicas = h.replicas) {node : String}
    (hnodes : h'.nodes = h.nodes.erase node) {key : String}
    (hother : h.getNode hash key ≠ some (some node)) :
    h'.getNode hash key = h.getNode hash key := by
  rw [ho.getNode_eq] at hother ⊢
  rw [ho'.getNode_eq, ho.preference_erase ho' hr hreplicas hnodes]
  cases hall : h.preference hash key with
  | nil => rfl
  | cons first rest =>
    rw [hall] at hother
    have hne : first ≠ node := by
      rintro rfl
      exact hother rfl
    rw [List.erase_cons_tail (by simpa using hne)]
    rfl

end ConsistentHash

/-! ## Which nodes a key gets -/

open ConsistentHash in
/-- After any calls, a lookup ends, finds as many different nodes as there are, up to `count`, and
    they are those whose first virtual nodes come first. -/
theorem replica_selection {hash : String → ℕ} {replicas : ℕ} {names : Set String}
    (hinj : HashInjective hash replicas names) (hreplicas : 1 ≤ replicas) {nodes : List String}
    {ops : List RingOp} (hnodes : ∀ node ∈ nodes, node ∈ names)
    (hops : ∀ op ∈ ops, op.node ∈ names) :
    ∃ h, (new hash nodes replicas).run hash ops = some h ∧ ∀ key count, ∃ result,
      h.getNodesForKey hash key count = some result ∧
      result.length = min count h.nodes.card ∧ result.Nodup ∧ (∀ a ∈ result, a ∈ h.nodes) ∧
      result.Pairwise (Ahead hash replicas (hash key)) ∧
      (∀ a ∈ result, ∀ b ∈ h.nodes, b ∉ result → Ahead hash replicas (hash key) a b) ∧
      (1 ≤ count → h.getNode hash key = some result.head?) ∧
      ∃ longer, h.getNodesForKey hash key (count + 1) = some longer ∧ result <+: longer := by
  obtain ⟨h, hrun, ho, rfl, -⟩ := exists_owned hinj hnodes hops
  refine ⟨h, hrun, fun key count => ⟨_, ho.getNodesForKey_eq hreplicas key count, ?_, ?_,
    fun a ha => ?_, ?_, fun a ha b hb hnot => ?_, fun hcount => ?_, _,
    ho.getNodesForKey_eq hreplicas key (count + 1), ?_⟩⟩
  · rw [List.length_take, ho.length_preference hreplicas]
  · exact (ho.nodup_preference key).sublist (List.take_sublist count _)
  · exact (ho.mem_preference hreplicas key a).mp (List.mem_of_mem_take ha)
  · exact (ho.pairwise_preference key).sublist (List.take_sublist count _)
  · have hpairwise := ho.pairwise_preference key
    rw [← List.take_append_drop count (h.preference hash key)] at hpairwise
    refine (List.pairwise_append.mp hpairwise).2.2 a ha b ?_
    have hmem := (ho.mem_preference hreplicas key b).mpr hb
    rw [← List.take_append_drop count (h.preference hash key)] at hmem
    exact (List.mem_append.mp hmem).resolve_left hnot
  · rw [ho.getNode_eq, List.head?_take, if_neg (by omega)]
  · exact List.take_prefix_take_left (Nat.le_succ count)

open ConsistentHash in
/-- Two nodes, one of which was away. -/
theorem replica_selection_pair :
    ∃ h, (new md5 ["a", "b"] 2).run md5 [.removeNode "a", .addNode "a"] = some h ∧
      ∀ key count, ∃ result, h.getNodesForKey md5 key count = some result ∧
        result.length = min count 2 ∧ result.Nodup := by
  have hnodes : ∀ node ∈ ["a", "b"], node ∈ ({"a", "b"} : Set String) := by simp
  have hops : ∀ op ∈ [RingOp.removeNode "a", .addNode "a"],
      op.node ∈ ({"a", "b"} : Set String) := by
    simp [RingOp.node]
  obtain ⟨h, hrun, hall⟩ := replica_selection hashInjective_pair (by decide) hnodes hops
  have hcard : ((new md5 ["a", "b"] 2).run md5 [.removeNode "a", .addNode "a"]).all
      (fun h => h.nodes.card = 2) = true := by
    decide +kernel
  rw [hrun] at hcard
  refine ⟨h, hrun, fun key count => ?_⟩
  obtain ⟨result, hresult, hlength, hnodup, -⟩ := hall key count
  rw [of_decide_eq_true (hcard :)] at hlength
  exact ⟨result, hresult, hlength, hnodup⟩

/-- Taking a node out of the ring deletes it from every list and does nothing else, and putting it
    back restores every answer. -/
theorem minimal_redistribution {hash : String → ℕ} {replicas : ℕ} {names : Set String}
    (hinj : HashInjective hash replicas names) (hreplicas : 1 ≤ replicas) {nodes : List String}
    {ops : List RingOp} (hnodes : ∀ node ∈ nodes, node ∈ names)
    (hops : ∀ op ∈ ops, op.node ∈ names) {h : ConsistentHash}
    (hrun : (ConsistentHash.new hash nodes replicas).run hash ops = some h) {node : String}
    (hnode : node ∈ h.nodes) :
    ∃ h', h.removeNode hash node = .ok h' ∧ ∀ key,
      (∃ all, h.getNodesForKey hash key h.nodes.card = some all ∧
        ∀ count, h'.getNodesForKey hash key count = some ((all.erase node).take count)) ∧
      (∀ count result, h.getNodesForKey hash key count = some result → node ∉ result →
        h'.getNodesForKey hash key count = some result) ∧
      (h.getNode hash key ≠ some (some node) → h'.getNode hash key = h.getNode hash key) ∧
      (h'.addNode hash node).getNode hash key = h.getNode hash key ∧
      ∀ count, (h'.addNode hash node).getNodesForKey hash key count =
        h.getNodesForKey hash key count := by
  obtain ⟨g, hg, ho, rfl, hnames⟩ := ConsistentHash.exists_owned hinj hnodes hops
  obtain rfl := Option.some.inj (hg.symm.trans hrun)
  obtain ⟨h', hremove, ho', herase, hr'⟩ := ho.removeNode hinj hnames node
  have hnames' : ∀ other ∈ h'.nodes, other ∈ names := by
    intro other hother
    rw [herase] at hother
    exact hnames other (Finset.mem_of_mem_erase hother)
  obtain ⟨ho'', hback, hr''⟩ := ho'.addNode (hr'.symm ▸ hinj) hnames' (hnames node hnode)
  have hsame : (h'.addNode hash node).nodes = g.nodes := by
    rw [hback, herase, Finset.insert_erase hnode]
  refine ⟨h', hremove, fun key => ⟨⟨_, ho.getNodesForKey_eq hreplicas key _, fun count => ?_⟩,
    fun count result hresult hnot => ?_, ho.getNode_erase ho' hreplicas hr' herase, ?_⟩⟩
  · rw [ho'.getNodesForKey_eq (hr'.symm ▸ hreplicas), ho.preference_erase ho' hreplicas hr' herase,
      List.take_of_length_le (ho.length_preference hreplicas key).le]
  · rw [ho.getNodesForKey_eq hreplicas] at hresult
    obtain rfl := Option.some.inj hresult
    rw [ho'.getNodesForKey_eq (hr'.symm ▸ hreplicas), ho.preference_erase ho' hreplicas hr' herase,
      take_erase_of_notMem hnot]
  · exact ho''.lookups_eq ho (hr''.trans hr') hsame key

open ConsistentHash in
/-- Of two nodes, one goes and comes back. -/
theorem minimal_redistribution_pair :
    ∃ h h', (new md5 ["a", "b"] 2).run md5 [] = some h ∧ h.removeNode md5 "a" = .ok h' ∧
      ∀ key, (h.getNode md5 key ≠ some (some "a") →
          h'.getNode md5 key = h.getNode md5 key) ∧
        (h'.addNode md5 "a").getNode md5 key = h.getNode md5 key := by
  have hrun : ((new md5 ["a", "b"] 2).run md5 []).any (fun h => decide ("a" ∈ h.nodes)) = true := by
    decide +kernel
  obtain ⟨h, hh, hnode⟩ := (Option.any_eq_true _ _).mp hrun
  obtain ⟨h', hremove, hall⟩ := minimal_redistribution hashInjective_pair (by decide) (by simp)
    (by simp) hh (of_decide_eq_true hnode)
  exact ⟨h, h', hh, hremove, fun key => ⟨(hall key).2.2.1, (hall key).2.2.2.1⟩⟩

end Pynchronize
