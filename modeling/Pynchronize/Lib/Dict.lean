import Mathlib.Data.List.Nodup
import Mathlib.Data.List.Basic

/-!
Finite maps that remember the order in which their keys were first inserted.
Assigning to a present key keeps its place, a new key goes to the end, and the
structure carries the proof that no key occurs twice, so every lookup lemma
holds without a side condition.
-/

namespace Lib

structure Dict (K V : Type*) where
  items : List (K × V)
  nodup : (items.map Prod.fst).Nodup

namespace Dict

variable {K V : Type*}

def empty : Dict K V := ⟨[], List.nodup_nil⟩

instance : Inhabited (Dict K V) := ⟨empty⟩

def keys (d : Dict K V) : List K := d.items.map Prod.fst

theorem keys_nodup (d : Dict K V) : d.keys.Nodup := d.nodup

theorem length_items (d : Dict K V) : d.items.length = d.keys.length :=
  (List.length_map _).symm

@[simp] theorem keys_empty : (empty : Dict K V).keys = [] := rfl

section Lookup

variable [DecidableEq K]

def getItems (k : K) : List (K × V) → Option V
  | [] => none
  | kv :: rest => if kv.1 = k then some kv.2 else getItems k rest

def setItems (k : K) (v : V) : List (K × V) → List (K × V)
  | [] => [(k, v)]
  | kv :: rest => if kv.1 = k then (k, v) :: rest else kv :: setItems k v rest

def get? (d : Dict K V) (k : K) : Option V := getItems k d.items

def contains (d : Dict K V) (k : K) : Bool := (d.get? k).isSome

theorem getItems_eq_some_iff {l : List (K × V)} (hl : (l.map Prod.fst).Nodup) (k : K) (v : V) :
    getItems k l = some v ↔ (k, v) ∈ l := by
  induction l with
  | nil => simp [getItems]
  | cons kv rest ih =>
    simp only [List.map_cons, List.nodup_cons] at hl
    by_cases h : kv.1 = k
    · subst h
      have hrest : (kv.1, v) ∉ rest := fun hm => hl.1 (List.mem_map.mpr ⟨_, hm, rfl⟩)
      simp only [getItems, ↓reduceIte, Option.some.injEq, List.mem_cons, hrest, or_false]
      exact ⟨fun hv => by rw [← hv], fun hv => by rw [← hv]⟩
    · have hne : (k, v) ≠ kv := fun he => h (by rw [← he])
      simp only [getItems, h, ↓reduceIte, ih hl.2, List.mem_cons, hne, false_or]

theorem mem_items_iff (d : Dict K V) (k : K) (v : V) : (k, v) ∈ d.items ↔ d.get? k = some v :=
  (getItems_eq_some_iff d.nodup k v).symm

theorem mem_keys_iff (d : Dict K V) (k : K) : k ∈ d.keys ↔ ∃ v, d.get? k = some v := by
  simp only [keys, List.mem_map, ← mem_items_iff]
  exact ⟨fun ⟨kv, hm, he⟩ => ⟨kv.2, by rw [← he]; exact hm⟩, fun ⟨v, hm⟩ => ⟨_, hm, rfl⟩⟩

theorem mem_keys_of_get? {d : Dict K V} {k : K} {v : V} (h : d.get? k = some v) : k ∈ d.keys :=
  (mem_keys_iff d k).mpr ⟨v, h⟩

@[simp] theorem contains_iff (d : Dict K V) (k : K) :
    d.contains k = true ↔ ∃ v, d.get? k = some v := by
  simp [contains, Option.isSome_iff_exists]

theorem contains_iff_mem_keys (d : Dict K V) (k : K) : d.contains k = true ↔ k ∈ d.keys :=
  (contains_iff d k).trans (mem_keys_iff d k).symm

@[simp] theorem get?_empty (k : K) : (empty : Dict K V).get? k = none := rfl

/-! ## Assignment -/

theorem map_fst_setItems (k : K) (v : V) (l : List (K × V)) :
    (setItems k v l).map Prod.fst =
      if k ∈ l.map Prod.fst then l.map Prod.fst else l.map Prod.fst ++ [k] := by
  induction l with
  | nil => simp [setItems]
  | cons kv rest ih =>
    by_cases h : kv.1 = k
    · simp [setItems, h]
    · have h' : k ≠ kv.1 := fun e => h e.symm
      simp only [setItems, h, ↓reduceIte, List.map_cons, ih, List.mem_cons, h', false_or]
      split <;> simp

def set (d : Dict K V) (k : K) (v : V) : Dict K V where
  items := setItems k v d.items
  nodup := by
    rw [map_fst_setItems]
    split
    · exact d.nodup
    · rename_i h
      exact List.nodup_append.mpr ⟨d.nodup, List.nodup_singleton k,
        fun a ha b hb => by
          rw [List.mem_singleton.mp hb]
          exact fun e => h (e ▸ ha)⟩

theorem keys_set (d : Dict K V) (k : K) (v : V) :
    (d.set k v).keys = if k ∈ d.keys then d.keys else d.keys ++ [k] :=
  map_fst_setItems k v d.items

theorem get?_set (d : Dict K V) (k k' : K) (v : V) :
    (d.set k v).get? k' = if k = k' then some v else d.get? k' := by
  have key : ∀ l : List (K × V),
      getItems k' (setItems k v l) = if k = k' then some v else getItems k' l := by
    intro l
    induction l with
    | nil => simp [setItems, getItems]
    | cons kv rest ih =>
      by_cases h : kv.1 = k
      · by_cases h' : k = k' <;> simp [setItems, getItems, h, h']
      · by_cases h' : k = k'
        · subst h'; simp [setItems, getItems, h, ih]
        · simp [setItems, getItems, h, h', ih]
  exact key d.items

@[simp] theorem get?_set_self (d : Dict K V) (k : K) (v : V) : (d.set k v).get? k = some v := by
  simp [get?_set]

theorem get?_set_ne (d : Dict K V) {k k' : K} (v : V) (h : k ≠ k') :
    (d.set k v).get? k' = d.get? k' := by
  simp [get?_set, h]

theorem mem_keys_set (d : Dict K V) (k k' : K) (v : V) :
    k' ∈ (d.set k v).keys ↔ k' = k ∨ k' ∈ d.keys := by
  rw [keys_set]
  split
  · rename_i h
    exact ⟨Or.inr, fun hk => hk.elim (fun e => e ▸ h) id⟩
  · simp [or_comm]

theorem contains_set (d : Dict K V) (k k' : K) (v : V) :
    (d.set k v).contains k' = true ↔ k' = k ∨ d.contains k' = true := by
  rw [contains_iff_mem_keys, contains_iff_mem_keys, mem_keys_set]

/-! ## Deletion and value-wise edits -/

/-- Rewrite every value in place, dropping the keys for which `f` answers `none`. -/
def filterMapVals (f : K → V → Option V) (d : Dict K V) : Dict K V where
  items := d.items.filterMap fun kv => (f kv.1 kv.2).map fun v => (kv.1, v)
  nodup := by
    have hsub : ((d.items.filterMap fun kv => (f kv.1 kv.2).map fun v => (kv.1, v)).map
        Prod.fst).Sublist (d.items.map Prod.fst) := by
      induction d.items with
      | nil => simp
      | cons kv rest ih =>
        cases h : f kv.1 kv.2 with
        | none => simpa [h] using ih.trans (List.sublist_cons_self _ _)
        | some v => simpa [h] using ih.cons_cons kv.1
    exact hsub.nodup d.nodup

theorem get?_filterMapVals (f : K → V → Option V) (d : Dict K V) (k : K) :
    (d.filterMapVals f).get? k = (d.get? k).bind (f k) := by
  apply Option.ext
  intro v
  rw [← mem_items_iff]
  simp only [filterMapVals, List.mem_filterMap, Option.map_eq_some_iff, Prod.mk.injEq,
    Option.bind_eq_some_iff, ← mem_items_iff]
  constructor
  · rintro ⟨kv, hm, w, hf, hk, rfl⟩
    exact ⟨kv.2, hk ▸ hm, hk ▸ hf⟩
  · rintro ⟨w, hm, hf⟩
    exact ⟨(k, w), hm, v, hf, rfl, rfl⟩

def erase (d : Dict K V) (k : K) : Dict K V :=
  d.filterMapVals fun k' v => if k' = k then none else some v

theorem get?_erase (d : Dict K V) (k k' : K) :
    (d.erase k).get? k' = if k' = k then none else d.get? k' := by
  rw [erase, get?_filterMapVals]
  by_cases h : k' = k
  · simp [h]
  · simp only [h, ↓reduceIte]; cases d.get? k' <;> rfl

@[simp] theorem get?_erase_self (d : Dict K V) (k : K) : (d.erase k).get? k = none := by
  simp [get?_erase]

theorem get?_erase_ne (d : Dict K V) {k k' : K} (h : k' ≠ k) :
    (d.erase k).get? k' = d.get? k' := by
  simp [get?_erase, h]

theorem keys_erase (d : Dict K V) (k : K) : (d.erase k).keys = d.keys.filter (· ≠ k) := by
  show (d.items.filterMap _).map Prod.fst = (d.items.map Prod.fst).filter _
  induction d.items with
  | nil => rfl
  | cons kv rest ih =>
    by_cases h : kv.1 = k
    · simpa [h] using ih
    · simpa [h] using ih

theorem contains_erase (d : Dict K V) (k k' : K) :
    (d.erase k).contains k' = true ↔ d.contains k' = true ∧ k' ≠ k := by
  rw [contains_iff_mem_keys, contains_iff_mem_keys, keys_erase, List.mem_filter, decide_eq_true_eq]

/-! ## Sizes -/

theorem length_set_of_contains (d : Dict K V) {k : K} (v : V) (h : d.contains k = true) :
    (d.set k v).items.length = d.items.length := by
  rw [length_items, length_items, keys_set,
    if_pos ((contains_iff_mem_keys d k).mp h)]

theorem length_le_set (d : Dict K V) (k : K) (v : V) :
    d.keys.length ≤ (d.set k v).keys.length := by
  rw [keys_set]
  split
  · exact Nat.le_refl _
  · rw [List.length_append]
    exact Nat.le_add_right _ _

theorem length_set_le (d : Dict K V) (k : K) (v : V) :
    (d.set k v).items.length ≤ d.items.length + 1 := by
  rw [length_items, length_items, keys_set]
  split
  · exact Nat.le_succ _
  · exact Nat.le_of_eq List.length_append

theorem length_erase_le (d : Dict K V) (k : K) : (d.erase k).items.length ≤ d.items.length := by
  rw [length_items, length_items, keys_erase]
  exact List.length_filter_le ..

theorem length_erase (d : Dict K V) {k : K} {v : V} (h : d.get? k = some v) :
    (d.erase k).items.length + 1 = d.items.length := by
  have hmem := mem_keys_of_get? h
  have hfilter : d.keys.filter (· ≠ k) = d.keys.erase k := by
    rw [d.keys_nodup.erase_eq_filter]
    exact List.filter_congr fun k' _ => by by_cases heq : k' = k <;> simp [heq]
  rw [length_items, length_items, keys_erase, hfilter, List.length_erase_of_mem hmem]
  have := List.length_pos_of_mem hmem
  omega

end Lookup

/-! ## Maps of the values -/

variable {W : Type*}

theorem eq_of_items {d d' : Dict K V} (h : d.items = d'.items) : d = d' := by
  cases d
  cases d'
  congr

def map (f : V → W) (d : Dict K V) : Dict K W where
  items := d.items.map fun kv => (kv.1, f kv.2)
  nodup := by
    rw [List.map_map]
    exact d.nodup

variable [DecidableEq K]

@[simp] theorem get?_map (f : V → W) (d : Dict K V) (k : K) :
    (d.map f).get? k = (d.get? k).map f := by
  have key : ∀ l : List (K × V),
      getItems k (l.map fun kv => (kv.1, f kv.2)) = (getItems k l).map f := by
    intro l
    induction l with
    | nil => rfl
    | cons kv rest ih =>
      simp only [List.map_cons, getItems]
      split
      · rfl
      · exact ih
  exact key d.items

theorem map_set (f : V → W) (d : Dict K V) (k : K) (v : V) :
    (d.set k v).map f = (d.map f).set k (f v) := by
  have key : ∀ l : List (K × V), (setItems k v l).map (fun kv => (kv.1, f kv.2)) =
      setItems k (f v) (l.map fun kv => (kv.1, f kv.2)) := by
    intro l
    induction l with
    | nil => rfl
    | cons kv rest ih =>
      simp only [List.map_cons, setItems]
      split
      · rfl
      · rw [List.map_cons, ih]
  exact eq_of_items (key d.items)

theorem map_erase (f : V → W) (d : Dict K V) (k : K) : (d.erase k).map f = (d.map f).erase k := by
  have key : ∀ l : List (K × V),
      (l.filterMap fun kv => (if kv.1 = k then none else some kv.2).map fun v => (kv.1, v)).map
        (fun kv => (kv.1, f kv.2)) =
      (l.map fun kv => (kv.1, f kv.2)).filterMap fun kv =>
        (if kv.1 = k then none else some kv.2).map fun v => (kv.1, v) := by
    intro l
    induction l with
    | nil => rfl
    | cons kv rest ih =>
      by_cases h : kv.1 = k
      · simpa [h] using ih
      · simpa [h] using ih
  exact eq_of_items (key d.items)

end Dict

end Lib
