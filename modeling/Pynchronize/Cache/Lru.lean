import Pynchronize.Lib.Dict

/-!
# The LRU cache of a CacheNode

An OrderedDict with the least recently used key first. `last_access` is read by
`get_entry_info` only and left out.
-/

namespace Pynchronize

open Lib

inductive CacheState
  | modified
  | exclusive
  | shared
  | invalid
  deriving DecidableEq

/-- `V` stands for the values, Python's None among them. -/
structure CacheEntry (V : Type*) where
  key : String
  value : V
  state : CacheState
  version : ℕ := 0
  deriving DecidableEq

structure LRUCache (V : Type*) where
  maxSize : ℕ
  cache : Dict String (CacheEntry V) := Dict.empty

namespace LRUCache

variable {V : Type*}

def moveToEnd (c : LRUCache V) (key : String) : LRUCache V :=
  match c.cache.get? key with
  | some entry => { c with cache := (c.cache.erase key).set key entry }
  | none => c

def get (c : LRUCache V) (key : String) : LRUCache V × Option (CacheEntry V) :=
  (c.moveToEnd key, c.cache.get? key)

def evict (c : LRUCache V) : LRUCache V × Option (CacheEntry V) :=
  match c.cache.items.find? fun item => item.2.state ≠ .modified with
  | some item => ({ c with cache := c.cache.erase item.1 }, some item.2)
  | none =>
    match c.cache.items with
    | [] => (c, none)
    | item :: _ => ({ c with cache := c.cache.erase item.1 }, some item.2)

def put (c : LRUCache V) (key : String) (entry : CacheEntry V) :
    LRUCache V × Option (CacheEntry V) :=
  if c.cache.contains key then
    ({ c with cache := (c.moveToEnd key).cache.set key entry }, none)
  else if c.cache.items.length ≥ c.maxSize then
    let (c, evicted) := c.evict
    ({ c with cache := c.cache.set key entry }, evicted)
  else ({ c with cache := c.cache.set key entry }, none)

def remove (c : LRUCache V) (key : String) : LRUCache V × Option (CacheEntry V) :=
  ({ c with cache := c.cache.erase key }, c.cache.get? key)

/-- `entry.state = state` on the entry that the cache holds. -/
def setState (c : LRUCache V) (key : String) (state : CacheState) : LRUCache V :=
  match c.cache.get? key with
  | some entry => { c with cache := c.cache.set key { entry with state := state } }
  | none => c

/-! ## Lookups after an operation -/

@[simp] theorem get?_moveToEnd (c : LRUCache V) (key k : String) :
    (c.moveToEnd key).cache.get? k = c.cache.get? k := by
  unfold moveToEnd
  cases h : c.cache.get? key with
  | none => rfl
  | some entry =>
    by_cases heq : key = k
    · subst heq
      simp [h]
    · simp [Dict.get?_set, Dict.get?_erase, heq, Ne.symm heq]

@[simp] theorem snd_get (c : LRUCache V) (key : String) : (c.get key).2 = c.cache.get? key := rfl

@[simp] theorem get?_get (c : LRUCache V) (key k : String) :
    (c.get key).1.cache.get? k = c.cache.get? k :=
  get?_moveToEnd ..

theorem get?_setState (c : LRUCache V) (key k : String) (state : CacheState) :
    (c.setState key state).cache.get? k =
      if key = k then (c.cache.get? k).map fun entry => { entry with state := state }
      else c.cache.get? k := by
  unfold setState
  cases h : c.cache.get? key with
  | none =>
    by_cases heq : key = k
    · subst heq
      simp [h]
    · simp [heq]
  | some entry =>
    by_cases heq : key = k
    · subst heq
      simp [h]
    · simp [Dict.get?_set, heq]

/-- An eviction removes entries and changes none. -/
theorem get?_evict (c : LRUCache V) (k : String) :
    c.evict.1.cache.get? k = c.cache.get? k ∨ c.evict.1.cache.get? k = none := by
  have herase : ∀ key, (c.cache.erase key).get? k = c.cache.get? k ∨
      (c.cache.erase key).get? k = none := by
    intro key
    rw [Dict.get?_erase]
    split
    · exact Or.inr rfl
    · exact Or.inl rfl
  unfold evict
  split
  · exact herase _
  · split
    · exact Or.inl rfl
    · exact herase _

@[simp] theorem get?_put_self (c : LRUCache V) (key : String) (entry : CacheEntry V) :
    (c.put key entry).1.cache.get? key = some entry := by
  unfold put
  split
  · simp
  · split <;> simp

theorem get?_put_of_ne (c : LRUCache V) {key k : String} (entry : CacheEntry V) (h : key ≠ k) :
    (c.put key entry).1.cache.get? k = c.cache.get? k ∨
      (c.put key entry).1.cache.get? k = none := by
  unfold put
  split
  · simp [Dict.get?_set_ne _ _ h]
  · split
    · simpa [Dict.get?_set_ne _ _ h] using c.get?_evict k
    · simp [Dict.get?_set_ne _ _ h]

/-- An entry with changes goes only if there is no other. -/
theorem evict_cases (c : LRUCache V) (hne : c.cache.items ≠ []) :
    ∃ key entry, c.cache.get? key = some entry ∧
      c.evict = ({ c with cache := c.cache.erase key }, some entry) ∧
      (entry.state = .modified → ∀ item ∈ c.cache.items, item.2.state = .modified) := by
  unfold evict
  cases hfind : c.cache.items.find? fun item => item.2.state ≠ .modified with
  | some item =>
    refine ⟨item.1, item.2, ?_, rfl, fun hdirty => ?_⟩
    · exact (Dict.mem_items_iff c.cache item.1 item.2).mp (List.mem_of_find?_eq_some hfind)
    · exact absurd hdirty (of_decide_eq_true (List.find?_some hfind :))
  | none =>
    have hall : ∀ item ∈ c.cache.items, item.2.state = .modified := by
      intro item hitem
      simpa using List.find?_eq_none.mp hfind item hitem
    cases hitems : c.cache.items with
    | nil => exact absurd hitems hne
    | cons item rest =>
      refine ⟨item.1, item.2, ?_, rfl, fun _ => hitems ▸ hall⟩
      exact (Dict.mem_items_iff c.cache item.1 item.2).mp (hitems ▸ List.mem_cons_self ..)

/-- Nothing goes, or one entry that had to. -/
theorem put_cases (c : LRUCache V) (hsize : 1 ≤ c.maxSize) (key : String) (entry : CacheEntry V) :
    ((c.cache.contains key = true ∨ c.cache.items.length < c.maxSize) ∧
        (c.put key entry).2 = none ∧
        ∀ k, key ≠ k → (c.put key entry).1.cache.get? k = c.cache.get? k) ∨
      (c.cache.get? key = none ∧ c.maxSize ≤ c.cache.items.length ∧
        ∃ victim old, c.cache.get? victim = some old ∧ (c.put key entry).2 = some old ∧
          (old.state = .modified → ∀ item ∈ c.cache.items, item.2.state = .modified) ∧
          ∀ k, key ≠ k → (c.put key entry).1.cache.get? k =
            if k = victim then none else c.cache.get? k) := by
  unfold put
  split
  · rename_i hcontains
    exact Or.inl ⟨Or.inl hcontains, rfl, fun k hne => by simp [Dict.get?_set_ne _ _ hne]⟩
  · rename_i hcontains
    split
    · rename_i hfull
      have hne : c.cache.items ≠ [] := by
        intro hnil
        rw [hnil] at hfull
        exact absurd hfull (by simp; omega)
      obtain ⟨victim, old, hold, hevict, hdirty⟩ := c.evict_cases hne
      rw [hevict]
      refine Or.inr ⟨Option.not_isSome_iff_eq_none.mp hcontains, hfull, victim, old, hold, rfl,
        hdirty, fun k hkey => ?_⟩
      show ((c.cache.erase victim).set key entry).get? k = _
      rw [Dict.get?_set_ne _ _ hkey, Dict.get?_erase]
    · rename_i hroom
      exact Or.inl ⟨Or.inr (by omega), rfl, fun k hne => Dict.get?_set_ne _ _ hne⟩

/-! ## The bound -/

theorem maxSize_moveToEnd (c : LRUCache V) (key : String) :
    (c.moveToEnd key).maxSize = c.maxSize := by
  unfold moveToEnd
  split <;> rfl

theorem maxSize_evict (c : LRUCache V) : c.evict.1.maxSize = c.maxSize := by
  unfold evict
  split
  · rfl
  · split <;> rfl

theorem maxSize_put (c : LRUCache V) (key : String) (entry : CacheEntry V) :
    (c.put key entry).1.maxSize = c.maxSize := by
  unfold put
  split
  · rfl
  · split
    · exact c.maxSize_evict
    · rfl

theorem maxSize_setState (c : LRUCache V) (key : String) (state : CacheState) :
    (c.setState key state).maxSize = c.maxSize := by
  unfold setState
  split <;> rfl

end LRUCache

end Pynchronize
