import Pynchronize.Lib.Transition
import Pynchronize.Cache.Node

/-!
# Write-backs of dirty entries

One node, whose calls wait for answers while other calls and messages are
served. What comes from outside is arbitrary. `dirty_written_back_iff` says when
no entry with changes is lost.
-/

namespace Pynchronize

open Lib

variable {V : Type*}

/-! ## One operation -/

namespace CacheNode

/-- Every MODIFIED entry but that of `own` stays or is written back. -/
def Keeps (n n' : CacheNode V) (own : Option String) : Prop :=
  ∀ key e, own ≠ some key → n.entry key = some e → e.state = .modified →
    n'.entry key = some e ∨
      ∃ w ∈ n'.writebacks.drop n.writebacks.length, { w with state := .modified } = e

def dirty (n : CacheNode V) (key : String) : Bool :=
  (n.entry key).any fun e => e.state = .modified

/-- A new key finds a place without an entry that has changes. -/
def hasRoom (n : CacheNode V) : Bool :=
  n.cache.cache.items.length < n.cache.maxSize ||
    n.cache.cache.items.any fun item => item.2.state ≠ .modified

theorem dirty_iff {n : CacheNode V} {key : String} :
    n.dirty key = true ↔ ∃ e, n.entry key = some e ∧ e.state = .modified := by
  unfold dirty
  cases n.entry key <;> simp

theorem hasRoom_eq_false_iff {n : CacheNode V} :
    n.hasRoom = false ↔ n.cache.maxSize ≤ n.cache.cache.items.length ∧
      ∀ item ∈ n.cache.cache.items, item.2.state = .modified := by
  unfold hasRoom
  simp

theorem keeps_of_entry {n n' : CacheNode V} (own : Option String)
    (h : ∀ key, n'.entry key = n.entry key) : Keeps n n' own :=
  fun key _ _ he _ => Or.inl ((h key).trans he)

/-- Where nothing is written back, everything has to stay. -/
theorem Keeps.stays {n n' : CacheNode V} (h : Keeps n n' none)
    (hwritebacks : n'.writebacks = n.writebacks) {key : String} {e : CacheEntry V}
    (he : n.entry key = some e) (hmodified : e.state = .modified) : n'.entry key = some e := by
  rcases h key e (fun hown => by cases hown) he hmodified with hsame | ⟨w, hw, -⟩
  · exact hsame
  · rw [hwritebacks, List.drop_length] at hw
    cases hw

theorem ne_of_dirty {n : CacheNode V} {key k : String} {e : CacheEntry V}
    (hclean : n.dirty key = false) (he : n.entry k = some e) (hmodified : e.state = .modified) :
    key ≠ k := by
  rintro rfl
  rw [dirty_iff.mpr ⟨e, he, hmodified⟩] at hclean
  cases hclean

theorem keeps_touch (n : CacheNode V) (key : String) (own : Option String) :
    Keeps n (n.touch key) own :=
  keeps_of_entry own (n.entry_touch key)

theorem writebacks_install (n : CacheNode V) (entry : CacheEntry V) :
    (n.install entry).writebacks.drop n.writebacks.length =
      (n.cache.put entry.key entry).2.toList.filter fun e => e.state = .modified :=
  List.drop_left ..

/-- What is evicted is written back. -/
theorem keeps_install (n : CacheNode V) (hsize : 1 ≤ n.cache.maxSize) (entry : CacheEntry V) :
    Keeps n (n.install entry) (some entry.key) := by
  intro key e hown he hmodified
  have hne : entry.key ≠ key := fun heq => hown (congrArg some heq)
  rw [writebacks_install]
  rcases n.cache.put_cases hsize entry.key entry with
    ⟨-, -, hsame⟩ | ⟨-, -, victim, old, hold, hevicted, -, hother⟩
  · exact Or.inl ((hsame key hne).trans he)
  · by_cases hvictim : key = victim
    · subst hvictim
      obtain rfl : e = old := Option.some.inj (he.symm.trans hold)
      refine Or.inr ⟨e, ?_, by rw [← hmodified]⟩
      rw [hevicted]
      exact List.mem_filter.mpr ⟨List.mem_singleton_self e, decide_eq_true hmodified⟩
    · exact Or.inl ((hother key hne).trans ((if_neg hvictim).trans he))

theorem keeps_store (n : CacheNode V) (hsize : 1 ≤ n.cache.maxSize) (key : String) (value : V) :
    Keeps n (n.store key value) (some key) :=
  keeps_install { n with versions := n.versions.set key (n.version key + 1) } hsize
    ⟨key, value, .modified, n.version key + 1⟩

theorem writebacks_install_of_some {n : CacheNode V} (hsize : 1 ≤ n.cache.maxSize)
    {entry old : CacheEntry V} (hold : n.entry entry.key = some old) :
    (n.install entry).writebacks = n.writebacks := by
  have hevicted : (n.cache.put entry.key entry).2 = none := by
    rcases n.cache.put_cases hsize entry.key entry with ⟨-, hnone, -⟩ | ⟨habsent, -⟩
    · exact hnone
    · have hold : n.cache.cache.get? entry.key = some old := hold
      rw [habsent] at hold
      cases hold
  show n.writebacks ++ (n.cache.put entry.key entry).2.toList.filter _ = n.writebacks
  rw [hevicted]
  exact List.append_nil _

/-- The answer replaces an entry without a look at it. -/
theorem keeps_fetch_iff (n : CacheNode V) (hsize : 1 ≤ n.cache.maxSize) (key : String)
    (response : Fetched V) : Keeps n (n.fetch key response) none ↔ n.dirty key = false := by
  let entry : CacheEntry V :=
    ⟨key, response.value, if response.shared then .shared else .exclusive, response.version⟩
  have hclean : entry.state ≠ .modified := by
    show (if response.shared then CacheState.shared else .exclusive) ≠ _
    split <;> decide
  constructor
  · intro hkeeps
    by_contra hdirty
    obtain ⟨e, he, hmodified⟩ := dirty_iff.mp (Bool.of_not_eq_false hdirty)
    have hsame : (n.install entry).entry key = some e :=
      Keeps.stays hkeeps (writebacks_install_of_some hsize he) he hmodified
    rw [Option.some.inj (hsame.symm.trans (n.entry_install_self entry))] at hmodified
    exact hclean hmodified
  · intro hdirty k e _ he hmodified
    have hne := ne_of_dirty hdirty he hmodified
    exact n.keeps_install hsize entry k e (fun h => hne (Option.some.inj h)) he hmodified

theorem keeps_handleCacheRead (n : CacheNode V) (key : String) (own : Option String) :
    Keeps n (n.handleCacheRead key).1 own := by
  intro k e _ he hmodified
  by_cases heq : key = k
  · subst heq
    refine Or.inr ⟨{ e with state := .shared }, ?_, by rw [← hmodified]⟩
    have hget : n.cache.cache.get? key = some e := he
    simp [handleCacheRead, hget, hmodified, MESIProtocol.onBusRead]
  · exact Or.inl ((n.entry_handleCacheRead key k).trans ((if_neg heq).trans he))

theorem keeps_handleCacheInvalidate (n : CacheNode V) (key : String) (version : ℕ)
    (own : Option String) : Keeps n (n.handleCacheInvalidate key version) own := by
  intro k e _ he hmodified
  have hentry := n.entry_handleCacheInvalidate key k version
  by_cases heq : key = k
  · subst heq
    rw [if_pos rfl, he] at hentry
    by_cases hversion : e.version < version
    · refine Or.inr ⟨e, ?_, by rw [← hmodified]⟩
      have hget : n.cache.cache.get? key = some e := he
      simp [handleCacheInvalidate, hget, hmodified, hversion]
    · exact Or.inl (hentry.trans (congrArg some (if_neg hversion)))
  · exact Or.inl (hentry.trans ((if_neg heq).trans he))

theorem writebacks_invalidate (n : CacheNode V) (key : String) :
    (n.invalidate key).writebacks = n.writebacks := by
  unfold invalidate
  cases h : n.cache.cache.get? key <;> simp [h]

theorem keeps_invalidate_iff (n : CacheNode V) (key : String) :
    Keeps n (n.invalidate key) none ↔ n.dirty key = false := by
  constructor
  · intro hkeeps
    by_contra hdirty
    obtain ⟨e, he, hmodified⟩ := dirty_iff.mp (Bool.of_not_eq_false hdirty)
    have hsame := hkeeps.stays (n.writebacks_invalidate key) he hmodified
    rw [entry_invalidate, if_pos rfl, he] at hsame
    rw [← Option.some.inj hsame] at hmodified
    cases hmodified
  · intro hdirty k e _ he hmodified
    exact Or.inl ((n.entry_invalidate key k).trans
      ((if_neg (ne_of_dirty hdirty he hmodified)).trans he))

theorem handleCacheWrite_of_some {n : CacheNode V} {key : String} {e : CacheEntry V}
    (he : n.entry key = some e) (value : V) (version : ℕ) :
    n.handleCacheWrite key value version = { n with
      cache := (((n.cache.moveToEnd key).setState key .invalid).put key
        ⟨key, value, .shared, version⟩).1 } := by
  have hget : n.cache.cache.get? key = some e := he
  unfold handleCacheWrite LRUCache.get
  rw [hget]

theorem handleCacheWrite_of_none {n : CacheNode V} {key : String} (he : n.entry key = none)
    (value : V) (version : ℕ) :
    n.handleCacheWrite key value version =
      { n with cache := (n.cache.put key ⟨key, value, .shared, version⟩).1 } := by
  have hget : n.cache.cache.get? key = none := he
  have hmove : n.cache.moveToEnd key = n.cache := by
    unfold LRUCache.moveToEnd
    rw [hget]
  unfold handleCacheWrite LRUCache.get
  rw [hget, hmove]

/-- With the key there, no other entry changes. -/
theorem entry_handleCacheWrite_of_some {n : CacheNode V} (hsize : 1 ≤ n.cache.maxSize)
    {key k : String} {e : CacheEntry V} (he : n.entry key = some e) (value : V) (version : ℕ)
    (hne : key ≠ k) : (n.handleCacheWrite key value version).entry k = n.entry k := by
  let c := (n.cache.moveToEnd key).setState key .invalid
  have hc : 1 ≤ c.maxSize := by
    rw [LRUCache.maxSize_setState, LRUCache.maxSize_moveToEnd]
    exact hsize
  have hget : ∀ k, c.cache.get? k =
      if key = k then (n.entry k).map fun e => { e with state := .invalid } else n.entry k := by
    intro k
    rw [LRUCache.get?_setState, LRUCache.get?_moveToEnd]
    rfl
  rw [handleCacheWrite_of_some he]
  rcases c.put_cases hc key ⟨key, value, .shared, version⟩ with ⟨-, -, hsame⟩ | ⟨hnone, -⟩
  · exact (hsame k hne).trans ((hget k).trans (if_neg hne))
  · rw [hget, if_pos rfl, he] at hnone
    cases hnone

/-- With the key there, its entry is replaced and nothing else happens. -/
theorem keeps_handleCacheWrite_of_some {n : CacheNode V} (hsize : 1 ≤ n.cache.maxSize)
    {key : String} {old : CacheEntry V} (hold : n.entry key = some old) (value : V)
    (version : ℕ) : Keeps n (n.handleCacheWrite key value version) none ↔ n.dirty key = false := by
  constructor
  · intro hkeeps
    by_contra hdirty
    obtain ⟨e, he, hmodified⟩ := dirty_iff.mp (Bool.of_not_eq_false hdirty)
    have hsame := hkeeps.stays rfl he hmodified
    rw [entry_handleCacheWrite_self] at hsame
    rw [← Option.some.inj hsame] at hmodified
    cases hmodified
  · intro hdirty k e _ he hmodified
    have hne := ne_of_dirty hdirty he hmodified
    exact Or.inl ((entry_handleCacheWrite_of_some hsize hold value version hne).trans he)

/-- Without the key, what has to go is lost. -/
theorem keeps_handleCacheWrite_of_none {n : CacheNode V} (hsize : 1 ≤ n.cache.maxSize)
    {key : String} (hnone : n.entry key = none) (value : V) (version : ℕ) :
    Keeps n (n.handleCacheWrite key value version) none ↔ n.hasRoom = true := by
  have hne : ∀ {k e}, n.entry k = some e → key ≠ k := by
    rintro k e he rfl
    rw [hnone] at he
    cases he
  rw [handleCacheWrite_of_none hnone]
  rcases n.cache.put_cases hsize key ⟨key, value, .shared, version⟩ with
    ⟨hroom, -, hsame⟩ | ⟨-, hfull, victim, old, hold, -, hall, hother⟩
  · refine iff_of_true (fun k e _ he _ => Or.inl ((hsame k (hne he)).trans he)) ?_
    rcases hroom with hcontains | hroom
    · obtain ⟨e, he⟩ := (Dict.contains_iff _ _).mp hcontains
      exact absurd rfl (hne he)
    · unfold hasRoom
      rw [decide_eq_true hroom]
      rfl
  · constructor
    · intro hkeeps
      by_contra hroom
      have hmodified := (hasRoom_eq_false_iff.mp (Bool.of_not_eq_true hroom)).2
        (victim, old) ((Dict.mem_items_iff _ _ _).mpr hold)
      have hsame := (hother victim (hne hold)).symm.trans (hkeeps.stays rfl hold hmodified)
      rw [if_pos rfl] at hsame
      cases hsame
    · intro hroom k e _ he hmodified
      have hvictim : k ≠ victim := by
        rintro rfl
        obtain rfl : e = old := Option.some.inj (he.symm.trans hold)
        rw [hasRoom_eq_false_iff.mpr ⟨hfull, hall hmodified⟩] at hroom
        cases hroom
      exact Or.inl ((hother k (hne he)).trans ((if_neg hvictim).trans he))

theorem keeps_handleCacheWrite_iff (n : CacheNode V) (hsize : 1 ≤ n.cache.maxSize) (key : String)
    (value : V) (version : ℕ) : Keeps n (n.handleCacheWrite key value version) none ↔
      n.dirty key = false ∧ (n.entry key = none → n.hasRoom = true) := by
  cases hentry : n.entry key with
  | some old =>
    rw [keeps_handleCacheWrite_of_some hsize hentry]
    exact (and_iff_left fun hnone => by cases hnone).symm
  | none =>
    have hdirty : n.dirty key = false := by
      unfold dirty
      rw [hentry]
      rfl
    rw [keeps_handleCacheWrite_of_none hsize hentry]
    exact ⟨fun hroom => ⟨hdirty, fun _ => hroom⟩, fun h => h.2 rfl⟩

theorem maxSize_invalidate (n : CacheNode V) (key : String) :
    (n.invalidate key).cache.maxSize = n.cache.maxSize := by
  unfold invalidate LRUCache.get
  cases n.cache.cache.get? key <;>
    simp [LRUCache.maxSize_setState, LRUCache.maxSize_moveToEnd]

theorem maxSize_handleCacheRead (n : CacheNode V) (key : String) :
    (n.handleCacheRead key).1.cache.maxSize = n.cache.maxSize := by
  unfold handleCacheRead LRUCache.get
  cases n.cache.cache.get? key with
  | none => exact n.cache.maxSize_moveToEnd key
  | some entry =>
    by_cases hinvalid : entry.state = .invalid <;>
      simp [hinvalid, LRUCache.maxSize_setState, LRUCache.maxSize_moveToEnd]

theorem maxSize_handleCacheInvalidate (n : CacheNode V) (key : String) (version : ℕ) :
    (n.handleCacheInvalidate key version).cache.maxSize = n.cache.maxSize := by
  unfold handleCacheInvalidate LRUCache.get
  cases n.cache.cache.get? key with
  | none => exact n.cache.maxSize_moveToEnd key
  | some entry =>
    by_cases hversion : version > entry.version <;>
      simp [hversion, LRUCache.maxSize_setState, LRUCache.maxSize_moveToEnd]

theorem maxSize_handleCacheWrite (n : CacheNode V) (key : String) (value : V) (version : ℕ) :
    (n.handleCacheWrite key value version).cache.maxSize = n.cache.maxSize := by
  cases hentry : n.entry key with
  | some old =>
    rw [handleCacheWrite_of_some hentry]
    exact (LRUCache.maxSize_put _ _ _).trans
      ((LRUCache.maxSize_setState _ _ _).trans (n.cache.maxSize_moveToEnd key))
  | none =>
    rw [handleCacheWrite_of_none hentry]
    exact LRUCache.maxSize_put ..

end CacheNode

/-! ## Operations that wait -/

/-- A node with the keys of the reads that wait for an answer, and what the writes that wait for
    the end of their broadcasts will store. -/
structure BusyNode (V : Type*) where
  node : CacheNode V
  reading : List String := []
  writing : List (String × V) := []

/-- `answered` and `unanswered` end the `k`-th waiting read, `written` the `k`-th waiting write. -/
inductive CacheEvent (V : Type*)
  | read (key : String)
  | answered (k : ℕ) (response : Fetched V)
  | unanswered (k : ℕ)
  | write (key : String) (value : V)
  | written (k : ℕ)
  | invalidate (key : String)
  | cacheRead (key : String)
  | cacheWrite (key : String) (value : V) (version : ℕ)
  | cacheInvalidate (key : String) (version : ℕ)

namespace BusyNode

def boot (maxSize : ℕ) : BusyNode V where
  node := .boot maxSize

def step (s : BusyNode V) : CacheEvent V → Option (BusyNode V)
  | .read key =>
    let hit := ((s.node.entry key).filter fun entry => entry.state ≠ .invalid).isSome
    some { s with
      node := s.node.touch key
      reading := if hit then s.reading else s.reading ++ [key] }
  | .answered k response => (s.reading[k]?).map fun key =>
    { s with node := s.node.fetch key response, reading := s.reading.eraseIdx k }
  | .unanswered k => (s.reading[k]?).map fun _ => { s with reading := s.reading.eraseIdx k }
  | .write key value =>
    some { s with node := s.node.touch key, writing := s.writing ++ [(key, value)] }
  | .written k => (s.writing[k]?).map fun w =>
    { s with node := s.node.store w.1 w.2, writing := s.writing.eraseIdx k }
  | .invalidate key => some { s with node := s.node.invalidate key }
  | .cacheRead key => some { s with node := (s.node.handleCacheRead key).1 }
  | .cacheWrite key value version =>
    some { s with node := s.node.handleCacheWrite key value version }
  | .cacheInvalidate key version => some { s with node := s.node.handleCacheInvalidate key version }

/-- The key whose entry a `write` replaces by what the node wrote itself. -/
def own (s : BusyNode V) : CacheEvent V → Option String
  | .written k => (s.writing[k]?).map Prod.fst
  | _ => none

/-- Neither an answer nor a CACHE_WRITE nor an `invalidate` meets an entry with changes under its
    key, and a CACHE_WRITE for a new key finds room. -/
def sparesDirty (s : BusyNode V) : CacheEvent V → Bool
  | .answered k _ => (s.reading[k]?).all fun key => !s.node.dirty key
  | .invalidate key => !s.node.dirty key
  | .cacheWrite key _ _ =>
    !s.node.dirty key && ((s.node.entry key).isSome || s.node.hasRoom)
  | _ => true

theorem keeps_step {s s' : BusyNode V} {a : CacheEvent V} (hsize : 1 ≤ s.node.cache.maxSize)
    (h : s.step a = some s') :
    s.node.Keeps s'.node (s.own a) ↔ s.sparesDirty a = true := by
  cases a with
  | read key =>
    obtain rfl := Option.some.inj h
    exact iff_of_true (s.node.keeps_touch key none) rfl
  | answered k response =>
    obtain ⟨key, hkey, rfl⟩ := Option.map_eq_some_iff.mp h
    show s.node.Keeps (s.node.fetch key response) none ↔ (s.reading[k]?).all _ = true
    rw [CacheNode.keeps_fetch_iff _ hsize, hkey]
    simp
  | unanswered k =>
    obtain ⟨key, -, rfl⟩ := Option.map_eq_some_iff.mp h
    exact iff_of_true (CacheNode.keeps_of_entry none fun _ => rfl) rfl
  | write key value =>
    obtain rfl := Option.some.inj h
    exact iff_of_true (s.node.keeps_touch key none) rfl
  | written k =>
    obtain ⟨w, hw, rfl⟩ := Option.map_eq_some_iff.mp h
    refine iff_of_true ?_ rfl
    show s.node.Keeps _ ((s.writing[k]?).map Prod.fst)
    rw [hw]
    exact s.node.keeps_store hsize w.1 w.2
  | invalidate key =>
    obtain rfl := Option.some.inj h
    show s.node.Keeps (s.node.invalidate key) none ↔ (!s.node.dirty key) = true
    rw [CacheNode.keeps_invalidate_iff, Bool.not_eq_true']
  | cacheRead key =>
    obtain rfl := Option.some.inj h
    exact iff_of_true (s.node.keeps_handleCacheRead key none) rfl
  | cacheWrite key value version =>
    obtain rfl := Option.some.inj h
    show s.node.Keeps (s.node.handleCacheWrite key value version) none ↔
      (!s.node.dirty key && ((s.node.entry key).isSome || s.node.hasRoom)) = true
    rw [CacheNode.keeps_handleCacheWrite_iff _ hsize]
    cases s.node.entry key <;> simp
  | cacheInvalidate key version =>
    obtain rfl := Option.some.inj h
    exact iff_of_true (s.node.keeps_handleCacheInvalidate key version none) rfl

theorem maxSize_step {s s' : BusyNode V} {a : CacheEvent V} (h : s.step a = some s') :
    s'.node.cache.maxSize = s.node.cache.maxSize := by
  cases a with
  | read key =>
    obtain rfl := Option.some.inj h
    exact s.node.cache.maxSize_moveToEnd key
  | answered k response =>
    obtain ⟨key, -, rfl⟩ := Option.map_eq_some_iff.mp h
    exact s.node.cache.maxSize_put ..
  | unanswered k =>
    obtain ⟨key, -, rfl⟩ := Option.map_eq_some_iff.mp h
    rfl
  | write key value =>
    obtain rfl := Option.some.inj h
    exact s.node.cache.maxSize_moveToEnd key
  | written k =>
    obtain ⟨w, -, rfl⟩ := Option.map_eq_some_iff.mp h
    exact s.node.cache.maxSize_put ..
  | invalidate key =>
    obtain rfl := Option.some.inj h
    exact s.node.maxSize_invalidate key
  | cacheRead key =>
    obtain rfl := Option.some.inj h
    exact s.node.maxSize_handleCacheRead key
  | cacheWrite key value version =>
    obtain rfl := Option.some.inj h
    exact s.node.maxSize_handleCacheWrite key value version
  | cacheInvalidate key version =>
    obtain rfl := Option.some.inj h
    exact s.node.maxSize_handleCacheInvalidate key version

/-- A node of any size loses no entry with changes exactly when no answer, CACHE_WRITE or
    `invalidate` meets one. -/
theorem dirty_written_back_iff {maxSize : ℕ} (hsize : 1 ≤ maxSize) {events : List (CacheEvent V)}
    {s' : BusyNode V} (hrun : Transition.run step (boot maxSize) events = some s') :
    Transition.EachStep step (fun s a => ∀ s', s.step a = some s' →
        s.node.Keeps s'.node (s.own a)) (boot maxSize) events ↔
      Transition.EachStep step (fun s a => s.sparesDirty a = true) (boot maxSize) events := by
  refine Transition.eachStep_congr (K := fun s => 1 ≤ s.node.cache.maxSize)
    (fun s a t hs hstep => ?_) (fun s a t hs _ hstep => ?_) hsize hrun
  · rw [← keeps_step hs hstep, hstep]
    simp only [Option.some.injEq, forall_eq']
  · rw [maxSize_step hstep]
    exact hs

/-! ## Concrete runs -/

/-- Two writes fill the cache; a read evicts the first, another node reads the second, which a
    third write makes dirty again and a CACHE_INVALIDATE takes. -/
def writtenBackRun : List (CacheEvent ℕ) :=
  [.write "a" 1, .written 0, .write "b" 2, .written 0, .read "c", .answered 0 ⟨3, 1, true⟩,
    .cacheRead "b", .write "b" 4, .written 0, .cacheInvalidate "b" 5, .cacheWrite "d" 6 1]

theorem dirty_written_back_iff_run :
    ∃ s', Transition.run step (boot 2) writtenBackRun = some s' ∧
      s'.node.writebacks = [⟨"a", 1, .modified, 1⟩, ⟨"b", 2, .shared, 1⟩, ⟨"b", 4, .modified, 2⟩] ∧
      Transition.EachStep step (fun s a => ∀ s', s.step a = some s' →
        s.node.Keeps s'.node (s.own a)) (boot 2) writtenBackRun := by
  have hrun : (Transition.run step (boot 2) writtenBackRun).any (fun s' => s'.node.writebacks =
      [⟨"a", 1, .modified, 1⟩, ⟨"b", 2, .shared, 1⟩, ⟨"b", 4, .modified, 2⟩]) = true := by
    decide +kernel
  obtain ⟨s', hs', hwritebacks⟩ := (Option.any_eq_true _ _).mp hrun
  exact ⟨s', hs', of_decide_eq_true hwritebacks,
    (dirty_written_back_iff (by decide) hs').mpr (by decide +kernel)⟩

/-- A node writes and invalidates what it wrote. -/
theorem invalidate_loses_write :
    ¬ ∀ (events : List (CacheEvent ℕ)) (a : CacheEvent ℕ) (s s' : BusyNode ℕ),
      Transition.run step (boot 2) events = some s → s.step a = some s' →
        s.node.Keeps s'.node (s.own a) := by
  intro hclaim
  have hrun : (Transition.run step (boot 2) [.write "a" (1 : ℕ), .written 0]).any (fun s =>
      s.node.dirty "a") = true := by
    decide +kernel
  obtain ⟨s, hs, hdirty⟩ := (Option.any_eq_true _ _).mp hrun
  have hkeeps := hclaim _ (.invalidate "a") s _ hs rfl
  rw [(CacheNode.keeps_invalidate_iff s.node "a").mp hkeeps] at hdirty
  cases hdirty

end BusyNode

end Pynchronize
