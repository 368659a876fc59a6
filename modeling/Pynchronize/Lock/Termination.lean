import Pynchronize.Lock.CycleSearch

/-!
# `detect_cycle` returns on every graph

`Returns` is the recursive `dfs` of `detect_cycle` as it runs, with no fuel: it
relates a call to what the call returns, and no call that runs forever is in it.
`returns_iff`: enough fuel gives the one result of the call, so `detectCycle` is
what `detect_cycle` answers. With the invariant of the search this settles
`detect_cycle` and `has_deadlock` on every graph (`cycle_detection`).
-/

namespace Pynchronize.DeadlockDetector

open Lib Relation

variable {C : Type*} [DecidableEq C]

/-! ## The search without fuel -/

mutual

/-- The call `dfs(node)` in the state `s` returns, with this result and state. -/
inductive Returns (nbrs : C → List C) : C → Search C → Option (List C) × Search C → Prop
  | closes {node : C} {s : Search C} (hv : node ∈ s.visited) (hp : node ∈ s.path) :
      Returns nbrs node s (some (s.path.drop (s.path.idxOf node) ++ [node]), s)
  | known {node : C} {s : Search C} (hv : node ∈ s.visited) (hp : node ∉ s.path) :
      Returns nbrs node s (none, s)
  | finds {node : C} {s s' : Search C} {result : List C} (hv : node ∉ s.visited)
      (h : LoopReturns nbrs (nbrs node) ⟨insert node s.visited, s.path ++ [node]⟩
        (some result, s')) :
      Returns nbrs node s (some result, s')
  | leaves {node : C} {s s' : Search C} (hv : node ∉ s.visited)
      (h : LoopReturns nbrs (nbrs node) ⟨insert node s.visited, s.path ++ [node]⟩ (none, s')) :
      Returns nbrs node s (none, { s' with path := s'.path.dropLast })

/-- The loop over the remaining neighbours ends; `none` when it found nothing. -/
inductive LoopReturns (nbrs : C → List C) :
    List C → Search C → Option (List C) × Search C → Prop
  | done {s : Search C} : LoopReturns nbrs [] s (none, s)
  | stops {neighbor : C} {rest : List C} {s s' : Search C} {result : List C}
      (h : Returns nbrs neighbor s (some result, s')) :
      LoopReturns nbrs (neighbor :: rest) s (some result, s')
  | goesOn {neighbor : C} {rest : List C} {s s' : Search C} {r : Option (List C) × Search C}
      (h : Returns nbrs neighbor s (none, s')) (hrest : LoopReturns nbrs rest s' r) :
      LoopReturns nbrs (neighbor :: rest) s r

end

variable {nbrs : C → List C}

mutual

/-- A call returns one result at most. -/
theorem Returns.unique {node : C} {s : Search C} {r r' : Option (List C) × Search C} :
    Returns nbrs node s r → Returns nbrs node s r' → r = r'
  | .closes _ _, .closes _ _ => rfl
  | .closes _ hp, .known _ hp' => absurd hp hp'
  | .closes hv _, .finds hv' _ => absurd hv hv'
  | .closes hv _, .leaves hv' _ => absurd hv hv'
  | .known _ hp, .closes _ hp' => absurd hp' hp
  | .known _ _, .known _ _ => rfl
  | .known hv _, .finds hv' _ => absurd hv hv'
  | .known hv _, .leaves hv' _ => absurd hv hv'
  | .finds hv _, .closes hv' _ => absurd hv' hv
  | .finds hv _, .known hv' _ => absurd hv' hv
  | .finds _ h, .finds _ h' => h.unique h'
  | .finds _ h, .leaves _ h' => by cases h.unique h'
  | .leaves hv _, .closes hv' _ => absurd hv' hv
  | .leaves hv _, .known hv' _ => absurd hv' hv
  | .leaves _ h, .finds _ h' => by cases h.unique h'
  | .leaves _ h, .leaves _ h' => by
    obtain rfl := (Prod.mk.inj (h.unique h')).2
    rfl

theorem LoopReturns.unique {ns : List C} {s : Search C} {r r' : Option (List C) × Search C} :
    LoopReturns nbrs ns s r → LoopReturns nbrs ns s r' → r = r'
  | .done, .done => rfl
  | .stops h, .stops h' => h.unique h'
  | .stops h, .goesOn h' _ => by cases h.unique h'
  | .goesOn h _, .stops h' => by cases h.unique h'
  | .goesOn h hrest, .goesOn h' hrest' => by
    obtain rfl := (Prod.mk.inj (h.unique h')).2
    exact hrest.unique hrest'

end

mutual

theorem Returns.visited_subset {node : C} {s : Search C} {r : Option (List C) × Search C} :
    Returns nbrs node s r → s.visited ⊆ r.2.visited
  | .closes _ _ => Finset.Subset.refl _
  | .known _ _ => Finset.Subset.refl _
  | .finds _ h => (Finset.subset_insert _ _).trans h.visited_subset
  | .leaves _ h => (Finset.subset_insert _ _).trans h.visited_subset

theorem LoopReturns.visited_subset {ns : List C} {s : Search C} {r : Option (List C) × Search C} :
    LoopReturns nbrs ns s r → s.visited ⊆ r.2.visited
  | .done => Finset.Subset.refl _
  | .stops h => h.visited_subset
  | .goesOn h hrest => h.visited_subset.trans hrest.visited_subset

end

/-! ## Enough fuel -/

theorem loopReturns_dfsEach {U : Finset C} {f : C → Search C → Option (List C) × Search C}
    {bound : ℕ} (hf : ∀ node ∈ U, ∀ s : Search C, (U \ s.visited).card < bound →
      Returns nbrs node s (f node s)) :
    ∀ (ns : List C) (s : Search C), (∀ n ∈ ns, n ∈ U) → (U \ s.visited).card < bound →
      LoopReturns nbrs ns s (dfsEach f ns s) := by
  intro ns
  induction ns with
  | nil => exact fun s _ _ => .done
  | cons n ns ih =>
    intro s hns hcard
    have hn := hf n (hns n (List.mem_cons_self ..)) s hcard
    rw [dfsEach]
    rcases he : f n s with ⟨_ | c, s'⟩
    · rw [he] at hn
      have hle : (U \ s'.visited).card ≤ (U \ s.visited).card :=
        Finset.card_le_card (Finset.sdiff_subset_sdiff (Finset.Subset.refl U) hn.visited_subset)
      exact .goesOn hn (ih s' (fun m hm => hns m (List.mem_cons_of_mem _ hm)) (by omega))
    · rw [he] at hn
      exact .stops hn

/-- With fuel for every unvisited vertex a call returns, and returns what `dfs` says. -/
theorem returns_dfs {U : Finset C} (hU : ∀ a ∈ U, ∀ x ∈ nbrs a, x ∈ U) (fuel : ℕ) :
    ∀ node ∈ U, ∀ s : Search C, (U \ s.visited).card < fuel →
      Returns nbrs node s (dfs nbrs fuel node s) := by
  induction fuel with
  | zero => exact fun _ _ _ h => absurd h (Nat.not_lt_zero _)
  | succ fuel ih =>
    intro node hnode s hcard
    rw [dfs]
    by_cases hv : node ∈ s.visited
    · by_cases hp : node ∈ s.path
      · simp only [hv, hp, ↓reduceIte]
        exact .closes hv hp
      · simp only [hv, hp, ↓reduceIte]
        exact .known hv hp
    · have hless := card_unvisited_insert hnode hv
      have hloop := loopReturns_dfsEach ih (nbrs node)
        ⟨insert node s.visited, s.path ++ [node]⟩ (hU node hnode) (by dsimp only; omega)
      simp only [hv, ↓reduceIte]
      rcases he : dfsEach (dfs nbrs fuel) (nbrs node)
          ⟨insert node s.visited, s.path ++ [node]⟩ with ⟨_ | c, s'⟩
      · rw [he] at hloop
        exact .leaves hv hloop
      · rw [he] at hloop
        exact .finds hv hloop

/-- `detect_cycle(start)` returns, and its answer is `detectCycle`. -/
theorem returns_iff (order : SetOrder C) (d : DeadlockDetector C) (start : C) :
    ∃ s, ∀ r, Returns (fun node => order.walk node (d.neighbors node)) start ⟨∅, []⟩ r ↔
      r = (d.detectCycle order start, s) := by
  have h : Returns (fun node => order.walk node (d.neighbors node)) start ⟨∅, []⟩
      (dfs (fun node => order.walk node (d.neighbors node))
        ((insert start d.vertices).card + 1) start ⟨∅, []⟩) := by
    refine returns_dfs (U := insert start d.vertices) (fun a _ x hx => ?_) _ start
      (Finset.mem_insert_self ..) _ (by simp)
    rw [order.mem_walk] at hx
    exact Finset.mem_insert_of_mem (mem_vertices_of_edge (w := a) hx)
  refine ⟨_, fun r => ⟨fun hr => hr.unique h, fun hr => ?_⟩⟩
  rw [hr]
  exact h

/-! ## `detect_cycle` and `has_deadlock` on a whole graph -/

theorem hasDeadlock_eq_some {order : SetOrder C} {d : DeadlockDetector C} {c : List C}
    (h : d.hasDeadlock order = some c) : ∃ node, d.detectCycle order node = some c := by
  obtain ⟨node, -, hc⟩ := List.exists_of_findSome?_eq_some h
  exact ⟨node, hc⟩

/-- A cycle passes through keys of the graph only, so one of the searches reaches it. -/
theorem hasDeadlock_isSome_iff (order : SetOrder C) (d : DeadlockDetector C) :
    (d.hasDeadlock order).isSome ↔ ∃ x, TransGen d.Edge x x := by
  constructor
  · intro h
    obtain ⟨c, hc⟩ := Option.isSome_iff_exists.mp h
    obtain ⟨node, hnode⟩ := hasDeadlock_eq_some hc
    obtain ⟨x, -, hcyc⟩ := (detectCycle_isSome_iff order d node).mp (by rw [hnode]; rfl)
    exact ⟨x, hcyc⟩
  · rintro ⟨x, hcyc⟩
    obtain ⟨y, hxy, -⟩ := TransGen.head'_iff.mp hcyc
    refine List.findSome?_isSome_iff.mpr ⟨x, mem_keys_of_edge hxy, ?_⟩
    exact (detectCycle_isSome_iff order d x).mpr ⟨x, ReflTransGen.refl, hcyc⟩

/-- **Cycle detection.** Whatever the graph and the order in which its sets are
walked, `detect_cycle(start)` returns, it answers a closed walk if a cycle is
reachable from `start` and `None` if none is, and `has_deadlock` does so for
the cycles of the whole graph. -/
theorem cycle_detection (order : SetOrder C) (d : DeadlockDetector C) :
    (∀ start,
      (∃ s, ∀ r, Returns (fun node => order.walk node (d.neighbors node)) start ⟨∅, []⟩ r ↔
        r = (d.detectCycle order start, s)) ∧
      ((d.detectCycle order start).isSome ↔
        ∃ x, ReflTransGen d.Edge start x ∧ TransGen d.Edge x x) ∧
      ∀ c, d.detectCycle order start = some c → ClosedWalk d.Edge c) ∧
    ((d.hasDeadlock order).isSome ↔ ∃ x, TransGen d.Edge x x) ∧
    ∀ c, d.hasDeadlock order = some c → ClosedWalk d.Edge c := by
  refine ⟨fun start => ⟨returns_iff order d start, detectCycle_isSome_iff order d start,
    fun c hc => (detectCycle_eq_some hc).1⟩, hasDeadlock_isSome_iff order d, fun c hc => ?_⟩
  obtain ⟨node, hnode⟩ := hasDeadlock_eq_some hc
  exact (detectCycle_eq_some hnode).1

end Pynchronize.DeadlockDetector
