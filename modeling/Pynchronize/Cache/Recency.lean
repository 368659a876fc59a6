import Pynchronize.Cache.Lru
import Pynchronize.Lib.Recency

/-!
# The LRU cache by access times

`LRUCache` keeps no times: an entry that is accessed goes to the end of the
OrderedDict. `lru_refines` says that it does what a map does that looks at the
times, whatever states the entries are given in between.
-/

namespace Pynchronize

open Lib

/-- A call, or a change of an entry's state where it is. -/
inductive LRUOp (V : Type*)
  | get (key : String)
  | put (key : String) (entry : CacheEntry V)
  | remove (key : String)
  | setState (key : String) (state : CacheState)

namespace LRUCache

variable {V : Type*}

def apply (c : LRUCache V) : LRUOp V → LRUCache V × Option (CacheEntry V)
  | .get key => c.get key
  | .put key entry => c.put key entry
  | .remove key => c.remove key
  | .setState key state => (c.setState key state, none)

/-- The cache after some operations, and what each of them returned. -/
def applyAll (c : LRUCache V) :
    List (LRUOp V) → LRUCache V × List (LRUOp V × Option (CacheEntry V))
  | [] => (c, [])
  | op :: ops =>
    let (c', result) := c.apply op
    let (c'', results) := c'.applyAll ops
    (c'', (op, result) :: results)

/-! ## What the operations are for -/

/-- An entry that goes without a write-back. -/
def Clean (entry : CacheEntry V) : Prop := entry.state ≠ .modified

instance (entry : CacheEntry V) : Decidable (Clean entry) :=
  inferInstanceAs (Decidable (entry.state ≠ .modified))

/-- An operation on a map that knows when its entries were accessed. -/
inductive Does (maxSize : ℕ) (s : Recency String (CacheEntry V)) :
    LRUOp V → Option (CacheEntry V) → Recency String (CacheEntry V) → Prop
  | hit {key : String} {entry : CacheEntry V} (h : s.held key = some entry) :
      Does maxSize s (.get key) (some entry) (s.access key)
  | miss {key : String} (h : s.held key = none) : Does maxSize s (.get key) none s
  | put {key : String} {entry : CacheEntry V} {evicted : Option (CacheEntry V)}
      {s' : Recency String (CacheEntry V)} (h : s.Put Clean maxSize key entry evicted s') :
      Does maxSize s (.put key entry) evicted s'
  | remove (key : String) : Does maxSize s (.remove key) (s.held key) (s.drop key)
  | setState {key : String} {entry : CacheEntry V} (state : CacheState)
      (h : s.held key = some entry) :
      Does maxSize s (.setState key state) none (s.assign key { entry with state := state })
  | noEntry {key : String} (state : CacheState) (h : s.held key = none) :
      Does maxSize s (.setState key state) none s

inductive DoesAll (maxSize : ℕ) : Recency String (CacheEntry V) →
    List (LRUOp V × Option (CacheEntry V)) → Recency String (CacheEntry V) → Prop
  | nil (s : Recency String (CacheEntry V)) : DoesAll maxSize s [] s
  | cons {op : LRUOp V} {result : Option (CacheEntry V)}
      {results : List (LRUOp V × Option (CacheEntry V))}
      {s s' s'' : Recency String (CacheEntry V)}
      (h : Does maxSize s op result s') (hrest : DoesAll maxSize s' results s'') :
      DoesAll maxSize s ((op, result) :: results) s''

/-! ## Operations -/

variable {c : LRUCache V} {s : Recency String (CacheEntry V)}

theorem moveToEnd_of_some {key : String} {entry : CacheEntry V}
    (h : c.cache.get? key = some entry) :
    (c.moveToEnd key).cache = (c.cache.erase key).set key entry := by
  unfold moveToEnd
  rw [h]

/-- What is evicted is what the times tell to give up. -/
theorem evict_spec (h : Recency.Represents c.cache s) (hne : c.cache.items ≠ []) :
    ∃ key entry, s.GivesUp Clean key entry ∧
      c.evict = ({ c with cache := c.cache.erase key }, some entry) := by
  unfold evict
  cases hfind : c.cache.items.find? fun item => item.2.state ≠ .modified with
  | some item =>
    obtain ⟨hheld, hclean, hfirst⟩ := h.oldest (p := fun entry => entry.state ≠ .modified) hfind
    exact ⟨item.1, item.2, Or.inl ⟨hheld, of_decide_eq_true hclean, fun k' v' hk' hv' =>
      hfirst k' v' hk' (decide_eq_true hv')⟩, rfl⟩
  | none =>
    have hdirty : ∀ k v, s.held k = some v → ¬ Clean v := by
      intro k v hk hclean
      have hmem := (Dict.mem_items_iff c.cache k v).mpr ((h.held k).trans hk)
      exact List.find?_eq_none.mp hfind (k, v) hmem (decide_eq_true hclean)
    cases hitems : c.cache.items with
    | nil => exact absurd hitems hne
    | cons item rest =>
      have hfirst : c.cache.items.find? (fun _ => true) = some (item.1, item.2) := by
        rw [hitems]
        rfl
      obtain ⟨hheld, -, hrest⟩ := h.oldest (p := fun _ => true) hfirst
      exact ⟨item.1, item.2, Or.inr ⟨hdirty, hheld, trivial, fun k' v' hk' _ =>
        hrest k' v' hk' rfl⟩, rfl⟩

theorem put_spec (h : Recency.Represents c.cache s) (hsize : 1 ≤ c.maxSize) (key : String)
    (entry : CacheEntry V) : ∃ s', s.Put Clean c.maxSize key entry (c.put key entry).2 s' ∧
      Recency.Represents (c.put key entry).1.cache s' := by
  unfold put
  split
  · rename_i hcontains
    obtain ⟨old, hold⟩ := (Dict.contains_iff _ _).mp hcontains
    have hheld : s.held key ≠ none := by
      rw [← h.held, hold]
      exact Option.some_ne_none old
    refine ⟨_, .held hheld, ?_⟩
    show Recency.Represents ((c.moveToEnd key).cache.set key entry) _
    rw [moveToEnd_of_some hold]
    exact (h.access hold).assign hheld entry
  · rename_i hcontains
    have hnone : s.held key = none := by
      rw [← h.held]
      exact Option.not_isSome_iff_eq_none.mp hcontains
    split
    · rename_i hfull
      have hne : c.cache.items ≠ [] := by
        intro hnil
        rw [hnil] at hfull
        exact absurd hfull (by simp; omega)
      obtain ⟨key', old, hgives, hevict⟩ := evict_spec h hne
      rw [hevict]
      refine ⟨_, .full hnone (by rw [h.size_eq]; exact hfull) hgives, ?_⟩
      refine (h.drop key').insert ?_ entry
      show Function.update s.held key' none key = none
      by_cases heq : key = key'
      · subst heq
        exact Function.update_self ..
      · rw [Function.update_of_ne heq, hnone]
    · rename_i hroom
      exact ⟨_, .room hnone (by rw [h.size_eq]; omega), h.insert hnone entry⟩

theorem setState_spec (h : Recency.Represents c.cache s) (key : String) (state : CacheState) :
    ∃ s', Does c.maxSize s (.setState key state) none s' ∧
      Recency.Represents (c.setState key state).cache s' := by
  unfold setState
  cases hget : c.cache.get? key with
  | none => exact ⟨s, .noEntry state ((h.held key).symm.trans hget), h⟩
  | some entry =>
    have hheld := (h.held key).symm.trans hget
    exact ⟨_, .setState state hheld, h.assign (by rw [hheld]; exact Option.some_ne_none _) _⟩

theorem get_spec (h : Recency.Represents c.cache s) (key : String) :
    ∃ s', Does c.maxSize s (.get key) (c.get key).2 s' ∧
      Recency.Represents (c.get key).1.cache s' := by
  rw [snd_get]
  show ∃ s', _ ∧ Recency.Represents (c.moveToEnd key).cache s'
  cases hget : c.cache.get? key with
  | none =>
    refine ⟨s, .miss ((h.held key).symm.trans hget), ?_⟩
    unfold moveToEnd
    rw [hget]
    exact h
  | some entry =>
    refine ⟨_, .hit ((h.held key).symm.trans hget), ?_⟩
    rw [moveToEnd_of_some hget]
    exact h.access hget

theorem apply_spec (h : Recency.Represents c.cache s) (hsize : 1 ≤ c.maxSize) (op : LRUOp V) :
    ∃ s', Does c.maxSize s op (c.apply op).2 s' ∧ Recency.Represents (c.apply op).1.cache s' := by
  cases op with
  | get key => exact get_spec h key
  | put key entry =>
    obtain ⟨s', hput, hrep⟩ := put_spec h hsize key entry
    exact ⟨s', .put hput, hrep⟩
  | remove key =>
    refine ⟨_, ?_, h.drop key⟩
    show Does c.maxSize s (.remove key) (c.cache.get? key) _
    rw [h.held]
    exact .remove key
  | setState key state => exact setState_spec h key state

/-! ## Sizes -/

theorem length_moveToEnd (c : LRUCache V) (key : String) :
    (c.moveToEnd key).cache.items.length ≤ c.cache.items.length := by
  unfold moveToEnd
  cases hget : c.cache.get? key with
  | none => exact Nat.le_refl _
  | some entry =>
    have := c.cache.length_erase hget
    have := (c.cache.erase key).length_set_le key entry
    show ((c.cache.erase key).set key entry).items.length ≤ _
    omega

theorem length_evict (c : LRUCache V) :
    c.evict.1.cache.items.length ≤ c.cache.items.length - 1 := by
  have herase : ∀ item ∈ c.cache.items,
      (c.cache.erase item.1).items.length ≤ c.cache.items.length - 1 := by
    intro item hitem
    have := c.cache.length_erase ((Dict.mem_items_iff c.cache item.1 item.2).mp hitem)
    omega
  unfold evict
  split
  · rename_i item hfind
    exact herase item (List.mem_of_find?_eq_some hfind)
  · split
    · rename_i hnil
      rw [hnil]
      exact Nat.zero_le _
    · rename_i item rest hitems
      exact herase item (hitems ▸ List.mem_cons_self ..)

/-- A full cache makes room first. -/
theorem length_put (c : LRUCache V) (hsize : 1 ≤ c.maxSize)
    (hlen : c.cache.items.length ≤ c.maxSize) (key : String) (entry : CacheEntry V) :
    (c.put key entry).1.cache.items.length ≤ c.maxSize := by
  unfold put
  split
  · rename_i hcontains
    show ((c.moveToEnd key).cache.set key entry).items.length ≤ _
    have hmoved : (c.moveToEnd key).cache.contains key = true := by
      unfold Dict.contains at hcontains ⊢
      rwa [get?_moveToEnd]
    rw [Dict.length_set_of_contains _ _ hmoved]
    exact (c.length_moveToEnd key).trans hlen
  · split
    · have := c.length_evict
      have := c.evict.1.cache.length_set_le key entry
      show (c.evict.1.cache.set key entry).items.length ≤ c.maxSize
      omega
    · have := c.cache.length_set_le key entry
      show (c.cache.set key entry).items.length ≤ c.maxSize
      omega

theorem length_apply (c : LRUCache V) (hsize : 1 ≤ c.maxSize)
    (hlen : c.cache.items.length ≤ c.maxSize) (op : LRUOp V) :
    (c.apply op).1.cache.items.length ≤ c.maxSize := by
  cases op with
  | get key => exact (c.length_moveToEnd key).trans hlen
  | put key entry => exact c.length_put hsize hlen key entry
  | remove key =>
    show (c.cache.erase key).items.length ≤ c.maxSize
    exact (c.cache.length_erase_le key).trans hlen
  | setState key state =>
    show (c.setState key state).cache.items.length ≤ c.maxSize
    unfold setState
    cases hget : c.cache.get? key with
    | none => exact hlen
    | some entry =>
      have hcontains : c.cache.contains key = true := (Dict.contains_iff _ _).mpr ⟨entry, hget⟩
      show (c.cache.set key _).items.length ≤ c.maxSize
      rw [Dict.length_set_of_contains _ _ hcontains]
      exact hlen

theorem maxSize_apply (c : LRUCache V) (op : LRUOp V) : (c.apply op).1.maxSize = c.maxSize := by
  cases op with
  | get key => exact c.maxSize_moveToEnd key
  | put key entry => exact c.maxSize_put key entry
  | remove key => rfl
  | setState key state => exact c.maxSize_setState key state

/-! ## Histories -/

theorem refines_of_represents (h : Recency.Represents c.cache s) (hsize : 1 ≤ c.maxSize)
    (hlen : c.cache.items.length ≤ c.maxSize) (ops : List (LRUOp V)) :
    ∃ s', DoesAll c.maxSize s (c.applyAll ops).2 s' ∧
      Recency.Represents (c.applyAll ops).1.cache s' ∧
      (c.applyAll ops).1.cache.items.length ≤ c.maxSize := by
  induction ops generalizing c s with
  | nil => exact ⟨s, .nil s, h, hlen⟩
  | cons op ops ih =>
    obtain ⟨s', hdoes, hrep⟩ := apply_spec h hsize op
    have hmax := c.maxSize_apply op
    obtain ⟨s'', hall, hend, hsmall⟩ := ih hrep (by rw [hmax]; exact hsize)
      (by rw [hmax]; exact c.length_apply hsize hlen op)
    rw [hmax] at hall hsmall
    exact ⟨s'', .cons hdoes hall, hend, hsmall⟩

/-- Whatever is called, an LRUCache returns what the times tell, holds what they tell in the order
    of its last accesses, and never more than `max_size` entries. -/
theorem lru_refines {maxSize : ℕ} (hsize : 1 ≤ maxSize) (ops : List (LRUOp V)) :
    let c : LRUCache V := { maxSize := maxSize }
    (c.applyAll ops).1.cache.keys.Nodup ∧ (c.applyAll ops).1.cache.items.length ≤ maxSize ∧
      ∃ s, DoesAll maxSize Recency.empty (c.applyAll ops).2 s ∧
        Recency.Represents (c.applyAll ops).1.cache s := by
  intro c
  obtain ⟨s, hdoes, hrep, hlen⟩ := refines_of_represents (c := c) Recency.represents_empty hsize
    (Nat.zero_le _) ops
  exact ⟨Dict.keys_nodup _, hlen, s, hdoes, hrep⟩

/-- Two entries, of which the one accessed longer ago is dirty. -/
theorem lru_refines_two :
    let c : LRUCache ℕ := { maxSize := 2 }
    let ops : List (LRUOp ℕ) := [.put "a" ⟨"a", 1, .modified, 1⟩, .put "b" ⟨"b", 2, .shared, 1⟩,
      .put "d" ⟨"d", 3, .shared, 1⟩, .setState "d" .modified, .get "a",
      .put "e" ⟨"e", 4, .shared, 1⟩]
    ((c.applyAll ops).2.map fun x => x.2.map CacheEntry.key) =
        [none, none, some "b", none, some "a", some "d"] ∧
      ∃ s, DoesAll 2 Recency.empty (c.applyAll ops).2 s ∧
        Recency.Represents (c.applyAll ops).1.cache s :=
  ⟨by decide, (lru_refines (show 1 ≤ 2 by decide) _).2.2⟩

end LRUCache

end Pynchronize
