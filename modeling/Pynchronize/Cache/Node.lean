import Pynchronize.Cache.Lru

/-!
# One CacheNode

What the coroutines and the handlers of a CacheNode do to its own state between
two awaits. `_writeback` writes a line to the log and waits for nothing.
-/

namespace Pynchronize

open Lib

/-! ## The MESI protocol -/

namespace MESIProtocol

variable {V : Type*}

/-- The entry that is written over does not matter. -/
def onLocalWrite : CacheState := .modified

/-- The value, the new state and whether the entry has to be written back. -/
def onBusRead (entry : CacheEntry V) : Option V × CacheState × Bool :=
  match entry.state with
  | .invalid => (none, .invalid, false)
  | .modified => (some entry.value, .shared, true)
  | .exclusive => (some entry.value, .shared, false)
  | .shared => (some entry.value, .shared, false)

def onBusWrite : CacheState := .invalid

end MESIProtocol

/-- The payload of a CACHE_RESPONSE that has found the key. -/
structure Fetched (V : Type*) where
  value : V
  version : ℕ
  shared : Bool
  deriving DecidableEq

/-- `writebacks` are the entries `_writeback` was called on. -/
structure CacheNode (V : Type*) where
  cache : LRUCache V
  versions : Dict String ℕ := Dict.empty
  writebacks : List (CacheEntry V) := []

namespace CacheNode

variable {V : Type*}

def boot (maxSize : ℕ) : CacheNode V where
  cache := { maxSize := maxSize }

def entry (n : CacheNode V) (key : String) : Option (CacheEntry V) := n.cache.cache.get? key

/-- `self.versions.get(key, 0)`. -/
def version (n : CacheNode V) (key : String) : ℕ := (n.versions.get? key).getD 0

/-- `self.cache.get(key)`. -/
def touch (n : CacheNode V) (key : String) : CacheNode V :=
  { n with cache := (n.cache.get key).1 }

/-- `self.cache.put(key, new_entry)`, with the write-back of what it evicts. -/
def install (n : CacheNode V) (entry : CacheEntry V) : CacheNode V :=
  let (cache, evicted) := n.cache.put entry.key entry
  { n with
    cache := cache
    writebacks := n.writebacks ++ evicted.toList.filter fun entry => entry.state = .modified }

/-- The entry of a read that a node has answered. -/
def fetch (n : CacheNode V) (key : String) (response : Fetched V) : CacheNode V :=
  n.install
    { key := key
      value := response.value
      state := if response.shared then .shared else .exclusive
      version := response.version }

/-- `write` from the end of the broadcast on. -/
def store (n : CacheNode V) (key : String) (value : V) : CacheNode V :=
  let version := n.version key + 1
  { n with versions := n.versions.set key version }.install
    { key := key, value := value, state := MESIProtocol.onLocalWrite, version := version }

def handleCacheRead (n : CacheNode V) (key : String) : CacheNode V × Option (Fetched V) :=
  let (cache, found) := n.cache.get key
  match found with
  | none => ({ n with cache := cache }, none)
  | some entry =>
    if entry.state = .invalid then ({ n with cache := cache }, none)
    else
      let (value, newState, needsWriteback) := MESIProtocol.onBusRead entry
      ({ n with
        cache := cache.setState key newState
        writebacks := n.writebacks ++
          if needsWriteback then [{ entry with state := newState }] else [] },
        value.map fun value => ⟨value, entry.version, newState = .shared⟩)

def handleCacheInvalidate (n : CacheNode V) (key : String) (version : ℕ) : CacheNode V :=
  let (cache, found) := n.cache.get key
  match found with
  | none => { n with cache := cache }
  | some entry =>
    if version > entry.version then
      { n with
        cache := cache.setState key MESIProtocol.onBusWrite
        writebacks := n.writebacks ++ if entry.state = .modified then [entry] else [] }
    else { n with cache := cache }

/-- What the `put` evicts is dropped. -/
def handleCacheWrite (n : CacheNode V) (key : String) (value : V) (version : ℕ) : CacheNode V :=
  let (cache, found) := n.cache.get key
  let cache := match found with
    | some _ => cache.setState key .invalid
    | none => cache
  { n with
    cache := (cache.put key
      { key := key, value := value, state := .shared, version := version }).1 }

/-- The local `invalidate`. -/
def invalidate (n : CacheNode V) (key : String) : CacheNode V :=
  let (cache, found) := n.cache.get key
  match found with
  | none => { n with cache := cache }
  | some _ => { n with cache := cache.setState key .invalid }

/-! ## Entries after an operation -/

@[simp] theorem entry_touch (n : CacheNode V) (key k : String) :
    (n.touch key).entry k = n.entry k :=
  n.cache.get?_get key k

@[simp] theorem entry_install_self (n : CacheNode V) (entry : CacheEntry V) :
    (n.install entry).entry entry.key = some entry :=
  n.cache.get?_put_self entry.key entry

theorem entry_install_of_ne (n : CacheNode V) {entry : CacheEntry V} {k : String}
    (h : entry.key ≠ k) :
    (n.install entry).entry k = n.entry k ∨ (n.install entry).entry k = none :=
  n.cache.get?_put_of_ne entry h

/-- A valid entry is shared from then on, and its copy goes out. -/
theorem entry_handleCacheRead (n : CacheNode V) (key k : String) :
    (n.handleCacheRead key).1.entry k =
      if key = k then (n.entry k).map fun entry =>
        if entry.state = .invalid then entry else { entry with state := .shared }
      else n.entry k := by
  unfold handleCacheRead entry
  cases h : n.cache.cache.get? key with
  | none =>
    by_cases heq : key = k
    · subst heq
      simp [h]
    · simp [h, heq]
  | some entry =>
    by_cases heq : key = k
    · subst heq
      cases hs : entry.state <;>
        simp [h, hs, LRUCache.get?_setState, MESIProtocol.onBusRead]
    · cases hs : entry.state <;>
        simp [h, hs, heq, LRUCache.get?_setState, MESIProtocol.onBusRead]

theorem snd_handleCacheRead (n : CacheNode V) (key : String) :
    (n.handleCacheRead key).2 = (n.entry key).bind fun entry =>
      if entry.state = .invalid then none else some ⟨entry.value, entry.version, true⟩ := by
  unfold handleCacheRead entry
  cases h : n.cache.cache.get? key with
  | none => simp [h]
  | some entry => cases hs : entry.state <;> simp [h, hs, MESIProtocol.onBusRead]

theorem entry_handleCacheInvalidate (n : CacheNode V) (key k : String) (version : ℕ) :
    (n.handleCacheInvalidate key version).entry k =
      if key = k then (n.entry k).map fun entry =>
        if version > entry.version then { entry with state := .invalid } else entry
      else n.entry k := by
  unfold handleCacheInvalidate entry
  cases h : n.cache.cache.get? key with
  | none =>
    by_cases heq : key = k
    · subst heq
      simp [h]
    · simp [h, heq]
  | some entry =>
    by_cases heq : key = k
    · subst heq
      by_cases hv : entry.version < version <;>
        simp [h, hv, LRUCache.get?_setState, MESIProtocol.onBusWrite]
    · by_cases hv : entry.version < version <;>
        simp [h, hv, heq, LRUCache.get?_setState]

theorem entry_invalidate (n : CacheNode V) (key k : String) :
    (n.invalidate key).entry k =
      if key = k then (n.entry k).map fun entry => { entry with state := .invalid }
      else n.entry k := by
  unfold invalidate entry
  cases h : n.cache.cache.get? key with
  | none =>
    by_cases heq : key = k
    · subst heq
      simp [h]
    · simp [h, heq]
  | some entry =>
    by_cases heq : key = k
    · subst heq
      simp [h, LRUCache.get?_setState]
    · simp [h, heq, LRUCache.get?_setState]

@[simp] theorem entry_handleCacheWrite_self (n : CacheNode V) (key : String) (value : V)
    (version : ℕ) :
    (n.handleCacheWrite key value version).entry key = some ⟨key, value, .shared, version⟩ :=
  LRUCache.get?_put_self _ key _

theorem entry_handleCacheWrite_of_ne (n : CacheNode V) {key k : String} (value : V) (version : ℕ)
    (h : key ≠ k) : (n.handleCacheWrite key value version).entry k = n.entry k ∨
      (n.handleCacheWrite key value version).entry k = none := by
  unfold handleCacheWrite entry
  cases hfound : n.cache.cache.get? key with
  | none =>
    simpa [hfound] using (n.cache.get key).1.get?_put_of_ne ⟨key, value, .shared, version⟩ h
  | some entry =>
    simpa [hfound, LRUCache.get?_setState, h] using
      ((n.cache.get key).1.setState key .invalid).get?_put_of_ne
        ⟨key, value, .shared, version⟩ h

end CacheNode

end Pynchronize
