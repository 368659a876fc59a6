import Mathlib.Data.Finset.SDiff
import Pynchronize.Lock.Deadlock

/-!
# The search of `detect_cycle` is correct

`dfs_outcome` is the invariant of the recursion: `path` is a walk without
repetition, and the visited vertices that have left it have all their
successors among themselves and reach no cycle. `detectCycle_eq_some` and
`detectCycle_isSome_iff` read the answer for a whole graph off it, for every
order in which the sets are walked. The limit that the interpreter sets to the
depth of the recursion is left out.
-/

namespace Pynchronize.DeadlockDetector

open Lib Relation

variable {C : Type*}

/-- The shape in which a cycle is reported: its first vertex again at the end. -/
structure ClosedWalk (r : C → C → Prop) (c : List C) : Prop where
  two_le : 2 ≤ c.length
  ends : c.head? = c.getLast?
  chain : c.IsChain r
  nodup : c.dropLast.Nodup

theorem transGen_of_isChain {r : C → C → Prop} {a b : C} :
    ∀ {l : List C}, (a :: (l ++ [b])).IsChain r → TransGen r a b
  | [], h => by
    simp only [List.nil_append, List.isChain_cons_cons] at h
    exact TransGen.single h.1
  | x :: l, h => by
    simp only [List.cons_append, List.isChain_cons_cons] at h
    exact TransGen.head h.1 (transGen_of_isChain (by simpa using h.2))

theorem ClosedWalk.cycle {r : C → C → Prop} {c : List C} (h : ClosedWalk r c) :
    ∃ x ∈ c, TransGen r x x := by
  obtain ⟨htwo, hends, hchain, _⟩ := h
  cases c with
  | nil => simp at htwo
  | cons a rest =>
    rcases List.eq_nil_or_concat rest with rfl | ⟨l, b, rfl⟩
    · simp at htwo
    · simp only [List.concat_eq_append] at *
      rw [← List.cons_append, List.getLast?_concat] at hends
      obtain rfl : a = b := by simpa using hends
      exact ⟨a, List.mem_cons_self .., transGen_of_isChain hchain⟩

section Invariant

variable [DecidableEq C] (r : C → C → Prop) (start : C) (U : Finset C)

/-- What holds of `visited` and `path` between two steps of the search. -/
structure Searching (s : Search C) : Prop where
  chain : s.path.IsChain r
  nodup : s.path.Nodup
  reach : ∀ x ∈ s.path, ReflTransGen r start x
  path_visited : ∀ x ∈ s.path, x ∈ s.visited
  visited_sub : s.visited ⊆ U
  closed : ∀ b ∈ s.visited, b ∉ s.path → ∀ x, r b x → x ∈ s.visited ∧ x ∉ s.path
  acyclic : ∀ b ∈ s.visited, b ∉ s.path → ¬ TransGen r b b

/-- What a call that started in `s` and looked at the vertices `done` leaves. -/
def Outcome (s : Search C) (done : C → Prop) : Option (List C) × Search C → Prop
  | (some c, _) => ClosedWalk r c ∧ ∀ x ∈ c, ReflTransGen r start x
  | (none, s') => Searching r start U s' ∧ s'.path = s.path ∧ s.visited ⊆ s'.visited ∧
      ∀ x, done x → x ∈ s'.visited ∧ x ∉ s'.path

/-- `dfs` may be called on `node`: it extends the walk in `path`. -/
structure Callable (s : Search C) (node : C) : Prop where
  edge : ∀ l ∈ s.path.getLast?, r l node
  reach : ReflTransGen r start node
  mem : node ∈ U

variable {r start U}

theorem dfsEach_outcome {f : C → Search C → Option (List C) × Search C} {bound : ℕ}
    (hf : ∀ node s, Searching r start U s → Callable r start U s node →
      (U \ s.visited).card < bound → Outcome r start U s (· = node) (f node s)) :
    ∀ (ns : List C) (s : Search C), Searching r start U s →
      (∀ n ∈ ns, Callable r start U s n) → (U \ s.visited).card < bound →
      Outcome r start U s (· ∈ ns) (dfsEach f ns s) := by
  intro ns
  induction ns with
  | nil =>
    intro s hs _ _
    exact ⟨hs, rfl, Finset.Subset.refl _, fun x hx => absurd hx (by simp)⟩
  | cons n ns ih =>
    intro s hs hns hcard
    have hn := hf n s hs (hns n (List.mem_cons_self ..)) hcard
    rw [dfsEach]
    match he : f n s with
    | (some c, s') => rw [he] at hn; exact hn
    | (none, s') =>
      rw [he] at hn
      obtain ⟨hs', hpath, hsub, hdone⟩ := hn
      have hle : (U \ s'.visited).card ≤ (U \ s.visited).card :=
        Finset.card_le_card (Finset.sdiff_subset_sdiff (Finset.Subset.refl U) hsub)
      have hcall : ∀ m ∈ ns, Callable r start U s' m := fun m hm => by
        have h := hns m (List.mem_cons_of_mem _ hm)
        exact ⟨by rw [hpath]; exact h.edge, h.reach, h.mem⟩
      have hrest := ih s' hs' hcall (by omega)
      match he' : dfsEach f ns s' with
      | (some c, s'') => rw [he'] at hrest; simp only [he']; exact hrest
      | (none, s'') =>
        rw [he'] at hrest
        obtain ⟨hs'', hpath', hsub', hdone'⟩ := hrest
        simp only [he']
        refine ⟨hs'', hpath'.trans hpath, hsub.trans hsub', fun x hx => ?_⟩
        rcases List.mem_cons.mp hx with rfl | hx
        · obtain ⟨hv, hp⟩ := hdone x rfl
          exact ⟨hsub' hv, by rw [hpath']; exact hp⟩
        · exact hdone' x hx

/-- A vertex met again on the path closes a walk. -/
theorem closedWalk_of_mem_path {s : Search C} {node : C} (hs : Searching r start U s)
    (hc : Callable r start U s node) (hmem : node ∈ s.path) :
    ClosedWalk r (s.path.drop (s.path.idxOf node) ++ [node]) := by
  have hlt : s.path.idxOf node < s.path.length := List.idxOf_lt_length_of_mem hmem
  have hdrop : s.path.drop (s.path.idxOf node) =
      node :: s.path.drop (s.path.idxOf node + 1) := by
    rw [List.drop_eq_getElem_cons hlt, List.getElem_idxOf hlt]
  refine ⟨?_, ?_, ?_, ?_⟩
  · rw [hdrop]; simp
  · rw [hdrop, List.cons_append, ← List.cons_append, List.getLast?_concat]
    rfl
  · refine List.IsChain.append (hs.chain.drop _) (List.isChain_singleton _) ?_
    intro l hl n hn
    have hl' : l ∈ s.path.getLast? := by
      rwa [List.getLast?_drop, if_neg (by omega)] at hl
    obtain rfl : node = n := by simpa using hn
    exact hc.edge l hl'
  · rw [List.dropLast_concat]
    exact (List.drop_sublist _ _).nodup hs.nodup

/-- Pushing an unvisited vertex on the path. -/
theorem Searching.push {s : Search C} {node : C} (hs : Searching r start U s)
    (hc : Callable r start U s node) (hnew : node ∉ s.visited) :
    Searching r start U ⟨insert node s.visited, s.path ++ [node]⟩ := by
  have hnp : node ∉ s.path := fun h => hnew (hs.path_visited node h)
  have hold : ∀ b ∈ insert node s.visited, b ∉ s.path ++ [node] → b ∈ s.visited ∧ b ∉ s.path := by
    intro b hb hbp
    simp only [List.mem_append, List.mem_singleton, not_or] at hbp
    exact ⟨(Finset.mem_insert.mp hb).resolve_left hbp.2, hbp.1⟩
  refine ⟨?_, ?_, ?_, ?_, ?_, ?_, ?_⟩
  · refine List.IsChain.append hs.chain (List.isChain_singleton _) ?_
    intro l hl n hn
    obtain rfl : node = n := by simpa using hn
    exact hc.edge l hl
  · exact List.nodup_append.mpr ⟨hs.nodup, List.nodup_singleton node, fun a ha b hb => by
      rw [List.mem_singleton.mp hb]
      exact fun e => hnp (e ▸ ha)⟩
  · intro x hx
    rcases List.mem_append.mp hx with h | h
    · exact hs.reach x h
    · rw [List.mem_singleton.mp h]; exact hc.reach
  · intro x hx
    rcases List.mem_append.mp hx with h | h
    · exact Finset.mem_insert_of_mem (hs.path_visited x h)
    · rw [List.mem_singleton.mp h]; exact Finset.mem_insert_self ..
  · exact Finset.insert_subset hc.mem hs.visited_sub
  · intro b hb hbp x hx
    obtain ⟨hbv, hbp'⟩ := hold b hb hbp
    obtain ⟨hxv, hxp⟩ := hs.closed b hbv hbp' x hx
    refine ⟨Finset.mem_insert_of_mem hxv, ?_⟩
    simp only [List.mem_append, List.mem_singleton, not_or]
    exact ⟨hxp, fun e => hnew (e ▸ hxv)⟩
  · intro b hb hbp
    obtain ⟨hbv, hbp'⟩ := hold b hb hbp
    exact hs.acyclic b hbv hbp'

/-- Popping a vertex all of whose successors are done: it is done as well. -/
theorem Searching.pop {s : Search C} {path : List C} {node : C}
    (hs : Searching r start U s) (hpath : s.path = path ++ [node])
    (hdone : ∀ x, r node x → x ∈ s.visited ∧ x ∉ s.path) :
    Searching r start U ⟨s.visited, path⟩ := by
  have hnp : node ∉ path := fun h => by
    have := hs.nodup
    rw [hpath, List.nodup_append] at this
    exact this.2.2 node h node (List.mem_singleton_self _) rfl
  have hcase : ∀ b, b ∉ path → b ∉ s.path ∨ b = node := by
    intro b hb
    by_cases h : b = node
    · exact Or.inr h
    · left; rw [hpath]; simp [hb, h]
  have hout : ∀ x, x ∉ s.path → x ∉ path := fun x hx h => hx (by rw [hpath]; simp [h])
  -- the vertices off the old path are closed, so a walk from one never meets `node`
  have hback : ∀ b ∈ s.visited, b ∉ s.path → ∀ x, ReflTransGen r b x → x ∉ s.path := by
    intro b hbv hbp x hx
    have hcl : Closed r fun y => y ∈ s.visited ∧ y ∉ s.path :=
      fun a c ha hac => hs.closed a ha.1 ha.2 c hac
    exact (hcl.reach ⟨hbv, hbp⟩ hx).2
  refine ⟨?_, ?_, ?_, ?_, hs.visited_sub, ?_, ?_⟩
  · have := hs.chain
    rw [hpath] at this
    exact this.left_of_append
  · have := hs.nodup
    rw [hpath, List.nodup_append] at this
    exact this.1
  · exact fun x hx => hs.reach x (by rw [hpath]; simp [hx])
  · exact fun x hx => hs.path_visited x (by rw [hpath]; simp [hx])
  · intro b hb hbp x hx
    rcases hcase b hbp with h | rfl
    · obtain ⟨hv, hp⟩ := hs.closed b hb h x hx
      exact ⟨hv, hout x hp⟩
    · obtain ⟨hv, hp⟩ := hdone x hx
      exact ⟨hv, hout x hp⟩
  · intro b hb hbp
    rcases hcase b hbp with h | rfl
    · exact hs.acyclic b hb h
    · intro hcyc
      obtain ⟨x, hx, hxb⟩ := (TransGen.head'_iff).mp hcyc
      obtain ⟨hv, hp⟩ := hdone x hx
      exact hback x hv hp b hxb (by rw [hpath]; simp)

/-- A vertex that is visited for the first time leaves fewer to visit. -/
theorem card_unvisited_insert {visited : Finset C} {node : C} (hmem : node ∈ U)
    (hv : node ∉ visited) : (U \ insert node visited).card < (U \ visited).card := by
  apply Finset.card_lt_card
  refine ⟨Finset.sdiff_subset_sdiff (Finset.Subset.refl U) (Finset.subset_insert _ _),
    fun hsub => ?_⟩
  have := hsub (Finset.mem_sdiff.mpr ⟨hmem, hv⟩)
  exact (Finset.mem_sdiff.mp this).2 (Finset.mem_insert_self ..)

/-- **The search invariant.** With fuel for every unvisited vertex, a call of
`dfs` reports a closed walk or leaves `node` among the finished vertices. -/
theorem dfs_outcome {nbrs : C → List C} (hU : ∀ a ∈ U, ∀ x ∈ nbrs a, x ∈ U)
    (hr : ∀ a x, r a x ↔ x ∈ nbrs a) :
    ∀ (fuel : ℕ) (node : C) (s : Search C), Searching r start U s → Callable r start U s node →
      (U \ s.visited).card < fuel → Outcome r start U s (· = node) (dfs nbrs fuel node s) := by
  intro fuel
  induction fuel with
  | zero => intro node s _ _ h; omega
  | succ fuel ih =>
    intro node s hs hc hcard
    rw [dfs]
    by_cases hv : node ∈ s.visited
    · by_cases hp : node ∈ s.path
      · simp only [hv, hp, ↓reduceIte]
        refine ⟨closedWalk_of_mem_path hs hc hp, fun x hx => ?_⟩
        rcases List.mem_append.mp hx with h | h
        · exact hs.reach x ((List.drop_sublist _ _).subset h)
        · rw [List.mem_singleton.mp h]; exact hc.reach
      · simp only [hv, hp, ↓reduceIte]
        exact ⟨hs, rfl, Finset.Subset.refl _, fun x hx => by subst hx; exact ⟨hv, hp⟩⟩
    · simp only [hv, ↓reduceIte]
      have hpush := hs.push hc hv
      have hcall : ∀ n ∈ nbrs node,
          Callable r start U ⟨insert node s.visited, s.path ++ [node]⟩ n := by
        intro n hn
        have hedge : r node n := (hr node n).mpr hn
        refine ⟨fun l hl => ?_, hc.reach.tail hedge, hU node hc.mem n hn⟩
        obtain rfl : node = l := by simpa using hl
        exact hedge
      have hless := card_unvisited_insert hc.mem hv
      have hloop := dfsEach_outcome ih (nbrs node) _ hpush hcall (by dsimp only; omega)
      match he : dfsEach (dfs nbrs fuel) (nbrs node)
          ⟨insert node s.visited, s.path ++ [node]⟩ with
      | (some c, s') => rw [he] at hloop; exact hloop
      | (none, s') =>
        rw [he] at hloop
        obtain ⟨hs', hpath, hsub, hdone⟩ := hloop
        have hpop := hs'.pop hpath fun x hx => hdone x ((hr node x).mp hx)
        have hdrop : s'.path.dropLast = s.path := by rw [hpath]; simp
        simp only [hdrop]
        refine ⟨hpop, rfl, (Finset.subset_insert _ _).trans hsub, fun x hx => ?_⟩
        subst hx
        exact ⟨hsub (Finset.mem_insert_self ..), fun h => hv (hs.path_visited x h)⟩

end Invariant

/-! ## `detect_cycle` on a whole graph -/

variable [DecidableEq C]

theorem mem_keys_of_edge {d : DeadlockDetector C} {w h : C} (he : d.Edge w h) :
    w ∈ d.waitForGraph.keys := by
  unfold Edge neighbors at he
  cases hg : d.waitForGraph.get? w with
  | none => simp [hg] at he
  | some hs => exact Dict.mem_keys_of_get? hg

theorem mem_vertices_of_edge {d : DeadlockDetector C} {w h : C} (he : d.Edge w h) :
    h ∈ d.vertices :=
  Finset.mem_union_right _
    (Finset.mem_biUnion.mpr ⟨w, List.mem_toFinset.mpr (mem_keys_of_edge he), he⟩)

theorem detectCycle_outcome (order : SetOrder C) (d : DeadlockDetector C) (start : C) :
    Outcome d.Edge start (insert start d.vertices) ⟨∅, []⟩ (· = start)
      (dfs (fun node => order.walk node (d.neighbors node))
        ((insert start d.vertices).card + 1) start ⟨∅, []⟩) := by
  apply dfs_outcome
  · intro a _ x hx
    rw [order.mem_walk] at hx
    exact Finset.mem_insert_of_mem (mem_vertices_of_edge (w := a) hx)
  · exact fun a x => (order.mem_walk a _ x).symm
  · exact ⟨List.isChain_nil, List.nodup_nil, by simp, by simp, by simp, by simp, by simp⟩
  · exact ⟨by simp, ReflTransGen.refl, Finset.mem_insert_self ..⟩
  · simp

/-- Whatever `detect_cycle` reports is a closed walk of the wait-for graph. -/
theorem detectCycle_eq_some {order : SetOrder C} {d : DeadlockDetector C} {start : C}
    {c : List C} (h : d.detectCycle order start = some c) :
    ClosedWalk d.Edge c ∧ ∀ x ∈ c, ReflTransGen d.Edge start x := by
  have ho := detectCycle_outcome order d start
  unfold detectCycle at h
  match he : dfs (fun node => order.walk node (d.neighbors node))
      ((insert start d.vertices).card + 1) start ⟨∅, []⟩ with
  | (some c', s) =>
    rw [he] at h ho
    obtain rfl : c' = c := by simpa using h
    exact ho
  | (none, s) => rw [he] at h; simp at h

/-- **`detect_cycle` answers exactly when a cycle is reachable from `start`**,
in whatever order the sets are walked. -/
theorem detectCycle_isSome_iff (order : SetOrder C) (d : DeadlockDetector C) (start : C) :
    (d.detectCycle order start).isSome ↔
      ∃ x, ReflTransGen d.Edge start x ∧ TransGen d.Edge x x := by
  constructor
  · intro h
    obtain ⟨c, hc⟩ := Option.isSome_iff_exists.mp h
    obtain ⟨hwalk, hreach⟩ := detectCycle_eq_some hc
    obtain ⟨x, hx, hcyc⟩ := hwalk.cycle
    exact ⟨x, hreach x hx, hcyc⟩
  · rintro ⟨x, hreach, hcyc⟩
    have ho := detectCycle_outcome order d start
    unfold detectCycle
    match he : dfs (fun node => order.walk node (d.neighbors node))
        ((insert start d.vertices).card + 1) start ⟨∅, []⟩ with
    | (some c, s) => simp
    | (none, s) =>
      rw [he] at ho
      obtain ⟨hs, _, _, hdone⟩ := ho
      have hcl : Closed d.Edge fun y => y ∈ s.visited ∧ y ∉ s.path :=
        fun a b ha hab => hs.closed a ha.1 ha.2 b hab
      obtain ⟨hv, hp⟩ := hcl.reach (hdone start rfl) hreach
      exact absurd hcyc (hs.acyclic x hv hp)

/-- On a graph that is acyclic but for the edges out of `start`, the answer
says whether `start` lies on a cycle. -/
theorem detectCycle_isSome_iff_self {d : DeadlockDetector C} {r : C → C → Prop} {start : C}
    (order : SetOrder C) (hr : Acyclic r) (hd : ∀ a b, d.Edge a b → r a b ∨ a = start) :
    (d.detectCycle order start).isSome ↔ TransGen d.Edge start start := by
  rw [detectCycle_isSome_iff]
  constructor
  · rintro ⟨x, _, hx⟩
    exact cycle_through_new_source hr hd hx
  · exact fun h => ⟨start, ReflTransGen.refl, h⟩

end Pynchronize.DeadlockDetector
