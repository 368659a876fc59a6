import Mathlib.Data.List.Sort
import Mathlib.Data.Finset.Card
import Pynchronize.Lib.Dict
import Pynchronize.Lib.Transition

/-!
# The hash ring

`ConsistentHash` of a QueueNode. The hash is `md5`; here it is any function
`hash`. Every node contributes the hashes of its virtual keys
`node:0`, `node:1`, ... to the sorted list `ring`.
-/

namespace Pynchronize

open Lib

/-- `self.nodes` is a set of which only membership and size are used. -/
structure ConsistentHash where
  replicas : ℕ := 100
  ring : List ℕ := []
  nodeMap : Dict ℕ String := Dict.empty
  nodes : Finset String := ∅

def virtualKey (node : String) (i : ℕ) : String := node ++ ":" ++ toString i

/-- `bisect_left` on a sorted list. -/
def bisectLeft (ring : List ℕ) (x : ℕ) : ℕ := (ring.takeWhile (· < x)).length

namespace ConsistentHash

/-! ## Nodes come and go -/

/-- One round of the loop of `add_node`; `insort` of a number into a sorted list. -/
def addVirtual (hash : String → ℕ) (node : String) (h : ConsistentHash) (i : ℕ) : ConsistentHash :=
  let hashVal := hash (virtualKey node i)
  { h with
    ring := h.ring.orderedInsert (· ≤ ·) hashVal
    nodeMap := h.nodeMap.set hashVal node }

def addNode (hash : String → ℕ) (h : ConsistentHash) (node : String) : ConsistentHash :=
  if node ∈ h.nodes then h
  else (List.range h.replicas).foldl (addVirtual hash node) { h with nodes := insert node h.nodes }

/-- One round of the loop of `remove_node`: an error when `list.remove` or `del` raises, with what
    the call leaves behind. -/
def removeVirtual (hash : String → ℕ) (node : String) (h : ConsistentHash) (i : ℕ) :
    Except ConsistentHash ConsistentHash :=
  let hashVal := hash (virtualKey node i)
  if hashVal ∈ h.ring then
    let h := { h with ring := h.ring.erase hashVal }
    if h.nodeMap.contains hashVal then .ok { h with nodeMap := h.nodeMap.erase hashVal }
    else .error h
  else .error h

def removeNode (hash : String → ℕ) (h : ConsistentHash) (node : String) :
    Except ConsistentHash ConsistentHash :=
  if node ∈ h.nodes then
    (List.range h.replicas).foldlM (removeVirtual hash node) { h with nodes := h.nodes.erase node }
  else .ok h

/-- What a call leaves behind, whether it raises or not. -/
def leftBy : Except ConsistentHash ConsistentHash → ConsistentHash
  | .ok h => h
  | .error h => h

theorem addNode_nodes (hash : String → ℕ) (h : ConsistentHash) (node : String) :
    (h.addNode hash node).nodes = insert node h.nodes := by
  have hloop : ∀ (l : List ℕ) (g : ConsistentHash),
      (l.foldl (addVirtual hash node) g).nodes = g.nodes := by
    intro l
    induction l with
    | nil => exact fun _ => rfl
    | cons i l ih => exact fun g => ih (g.addVirtual hash node i)
  unfold addNode
  split
  · rename_i hin
    exact (Finset.insert_eq_of_mem hin).symm
  · exact hloop _ _

theorem removeVirtual_nodes (hash : String → ℕ) (node : String) (h : ConsistentHash) (i : ℕ) :
    (leftBy (h.removeVirtual hash node i)).nodes = h.nodes := by
  unfold removeVirtual
  dsimp only
  split
  · split <;> rfl
  · rfl

theorem removeNode_nodes (hash : String → ℕ) (h : ConsistentHash) (node : String) :
    (leftBy (h.removeNode hash node)).nodes = h.nodes.erase node := by
  have hloop : ∀ (l : List ℕ) (g : ConsistentHash),
      (leftBy (l.foldlM (removeVirtual hash node) g)).nodes = g.nodes := by
    intro l
    induction l with
    | nil => exact fun _ => rfl
    | cons i l ih =>
      intro g
      have hfirst := removeVirtual_nodes hash node g i
      rw [List.foldlM_cons]
      cases hr : g.removeVirtual hash node i with
      | error g' =>
        rw [hr] at hfirst
        exact hfirst
      | ok g' =>
        rw [hr] at hfirst
        exact (ih g').trans hfirst
  unfold removeNode
  split
  · exact hloop _ _
  · rename_i hout
    exact (Finset.erase_eq_of_notMem hout).symm

/-- `ConsistentHash(nodes, replicas)`. -/
def new (hash : String → ℕ) (nodes : List String) (replicas : ℕ) : ConsistentHash :=
  nodes.foldl (addNode hash) { replicas := replicas }

/-! ## Lookups -/

/-- The inner `none` is Python's; the outer one means that `node_map` has no entry. -/
def getNode (hash : String → ℕ) (h : ConsistentHash) (key : String) : Option (Option String) :=
  if h.ring = [] then some none
  else
    let idx := bisectLeft h.ring (hash key)
    let idx := if idx = h.ring.length then 0 else idx
    ((h.ring[idx]?).bind h.nodeMap.get?).map some

/-- The loop of `get_nodes_for_key`, at most `fuel` rounds of it; `seen` is the set of the
    elements of `result`. -/
def collectNodes (h : ConsistentHash) (count : ℕ) : ℕ → ℕ → List String → Option (List String)
  | 0, _, result =>
    if result.length < count ∧ result.length < h.nodes.card then none else some result
  | fuel + 1, idx, result =>
    if result.length < count ∧ result.length < h.nodes.card then
      let idx := if idx ≥ h.ring.length then 0 else idx
      match (h.ring[idx]?).bind h.nodeMap.get? with
      | none => none
      | some node =>
        h.collectNodes count fuel (idx + 1) (if node ∈ result then result else result ++ [node])
    else some result

/-- `none` when `node_map` has no entry or the loop does not end: one turn around the ring shows
    every node it can find. -/
def getNodesForKey (hash : String → ℕ) (h : ConsistentHash) (key : String) (count : ℕ) :
    Option (List String) :=
  if h.ring = [] then some []
  else h.collectNodes count h.ring.length (bisectLeft h.ring (hash key)) []

end ConsistentHash

/-! ## Sequences of calls -/

inductive RingOp
  | addNode (node : String)
  | removeNode (node : String)
  deriving DecidableEq

def RingOp.node : RingOp → String
  | .addNode node => node
  | .removeNode node => node

/-- `none` when the call raises. -/
def ConsistentHash.step (hash : String → ℕ) (h : ConsistentHash) : RingOp → Option ConsistentHash
  | .addNode node => some (h.addNode hash node)
  | .removeNode node => (h.removeNode hash node).toOption

def ConsistentHash.run (hash : String → ℕ) (h : ConsistentHash) (ops : List RingOp) :
    Option ConsistentHash :=
  Transition.run (step hash) h ops

end Pynchronize
