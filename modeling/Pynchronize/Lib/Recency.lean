import Mathlib.Data.Set.Card
import Mathlib.Logic.Function.Basic
import Pynchronize.Lib.Dict

/-!
Bounded maps that give up what was accessed longest ago. Some values are free to
go, and one of them goes first. The map knows for each key when it was accessed;
`Represents` says that a dict has the same entries in this order.
-/

namespace Lib

structure Recency (K V : Type*) where
  held : K → Option V
  accessed : K → ℕ
  clock : ℕ

namespace Recency

variable {K V : Type*}

def empty : Recency K V := ⟨fun _ => none, fun _ => 0, 0⟩

noncomputable def size (s : Recency K V) : ℕ := {k | s.held k ≠ none}.ncard

/-- `k` is held with a value of `p`, and was accessed before every other such key. -/
def Oldest (s : Recency K V) (p : V → Prop) (k : K) (v : V) : Prop :=
  s.held k = some v ∧ p v ∧
    ∀ k' v', s.held k' = some v' → p v' → k' ≠ k → s.accessed k < s.accessed k'

/-- What goes when there is no room: the oldest of the free values, or the oldest of all if none
    is free. -/
def GivesUp (s : Recency K V) (free : V → Prop) (k : K) (v : V) : Prop :=
  s.Oldest free k v ∨ (∀ k' v', s.held k' = some v' → ¬ free v') ∧ s.Oldest (fun _ => True) k v

variable [DecidableEq K]

def access (s : Recency K V) (k : K) : Recency K V :=
  { s with accessed := Function.update s.accessed k s.clock, clock := s.clock + 1 }

def assign (s : Recency K V) (k : K) (v : V) : Recency K V :=
  { s with held := Function.update s.held k (some v) }

def drop (s : Recency K V) (k : K) : Recency K V :=
  { s with held := Function.update s.held k none }

/-- A value is put into a map of at most `maxSize` entries: what the map gives up for it, and the
    map afterwards. -/
inductive Put (free : V → Prop) (maxSize : ℕ) (s : Recency K V) (k : K) (v : V) :
    Option V → Recency K V → Prop
  | held (h : s.held k ≠ none) : Put free maxSize s k v none ((s.access k).assign k v)
  | room (h : s.held k = none) (hsize : s.size < maxSize) :
      Put free maxSize s k v none ((s.access k).assign k v)
  | full {k' : K} {v' : V} (h : s.held k = none) (hsize : maxSize ≤ s.size)
      (hold : s.GivesUp free k' v') :
      Put free maxSize s k v (some v') (((s.drop k').access k).assign k v)

/-! ## Dicts in the order of access -/

structure Represents (d : Dict K V) (s : Recency K V) : Prop where
  held : ∀ k, d.get? k = s.held k
  ordered : d.keys.Pairwise fun a b => s.accessed a < s.accessed b
  past : ∀ k ∈ d.keys, s.accessed k < s.clock

variable {d : Dict K V} {s : Recency K V}

theorem represents_empty : Represents Dict.empty (empty : Recency K V) :=
  ⟨fun _ => rfl, List.Pairwise.nil, fun _ h => by cases h⟩

theorem Represents.not_mem_keys (h : Represents d s) {k : K} (hk : s.held k = none) :
    k ∉ d.keys := by
  intro hmem
  obtain ⟨v, hv⟩ := (Dict.mem_keys_iff d k).mp hmem
  rw [h.held, hk] at hv
  cases hv

theorem Represents.size_eq (h : Represents d s) : s.size = d.items.length := by
  have hset : {k | s.held k ≠ none} = (d.keys.toFinset : Set K) := by
    ext k
    rw [List.coe_toFinset, Set.mem_ofPred_eq, Set.mem_ofPred_eq, Dict.mem_keys_iff, h.held,
      Option.ne_none_iff_exists']
  unfold size
  rw [hset, Set.ncard_coe_finset, List.toFinset_card_of_nodup d.keys_nodup]
  exact List.length_map _

/-- Access times of other keys stay, so a part of the order stays. -/
theorem Represents.pairwise_access (h : Represents d s) {keys : List K} {k : K}
    (hsub : keys.Sublist d.keys) (hk : k ∉ keys) :
    (keys ++ [k]).Pairwise fun a b => (s.access k).accessed a < (s.access k).accessed b := by
  have hsame : ∀ a ∈ keys, (s.access k).accessed a = s.accessed a := fun a ha =>
    Function.update_of_ne (ne_of_mem_of_not_mem ha hk) ..
  refine List.pairwise_append.mpr ⟨?_, List.pairwise_singleton _ _, fun a ha b hb => ?_⟩
  · refine (h.ordered.sublist hsub).imp_of_mem fun {a b} ha hb hab => ?_
    rw [hsame a ha, hsame b hb]
    exact hab
  · obtain rfl := List.mem_singleton.mp hb
    rw [hsame a ha]
    show s.accessed a < Function.update s.accessed b s.clock b
    rw [Function.update_self]
    exact h.past a (hsub.subset ha)

theorem Represents.past_access (h : Represents d s) {keys : List K} {k : K}
    (hsub : keys.Sublist d.keys) :
    ∀ a ∈ keys ++ [k], (s.access k).accessed a < (s.access k).clock := by
  intro a ha
  show Function.update s.accessed k s.clock a < s.clock + 1
  by_cases heq : a = k
  · subst heq
    rw [Function.update_self]
    exact Nat.lt_succ_self _
  · rw [Function.update_of_ne heq]
    have hmem : a ∈ keys :=
      (List.mem_append.mp ha).resolve_right fun hlast => heq (List.mem_singleton.mp hlast)
    exact Nat.lt_succ_of_lt (h.past a (hsub.subset hmem))

/-- The entry goes to the end. -/
theorem Represents.access (h : Represents d s) {k : K} {v : V} (hk : d.get? k = some v) :
    Represents ((d.erase k).set k v) (s.access k) := by
  have hnot : k ∉ (d.erase k).keys := by
    rw [Dict.keys_erase]
    simp
  have hkeys : ((d.erase k).set k v).keys = (d.erase k).keys ++ [k] := by
    rw [Dict.keys_set, if_neg hnot]
  have hsub : (d.erase k).keys.Sublist d.keys := by
    rw [Dict.keys_erase]
    exact List.filter_sublist
  refine ⟨fun k' => ?_, ?_, ?_⟩
  · show _ = s.held k'
    rw [← h.held, Dict.get?_set]
    by_cases heq : k = k'
    · subst heq
      rw [if_pos rfl, hk]
    · rw [if_neg heq, Dict.get?_erase_ne _ (Ne.symm heq)]
  · rw [hkeys]
    exact h.pairwise_access hsub hnot
  · rw [hkeys]
    exact h.past_access hsub

theorem held_assign (s : Recency K V) (k k' : K) (v : V) :
    (s.assign k v).held k' = if k = k' then some v else s.held k' := by
  show Function.update s.held k (some v) k' = _
  by_cases heq : k = k'
  · subst heq
    rw [Function.update_self, if_pos rfl]
  · rw [Function.update_of_ne (Ne.symm heq), if_neg heq]

/-- A value changes where it is. -/
theorem Represents.assign (h : Represents d s) {k : K} (hk : s.held k ≠ none) (v : V) :
    Represents (d.set k v) (s.assign k v) := by
  obtain ⟨old, hold⟩ := Option.ne_none_iff_exists'.mp hk
  have hkeys : (d.set k v).keys = d.keys := by
    rw [Dict.keys_set, if_pos ((Dict.mem_keys_iff d k).mpr ⟨old, (h.held k).trans hold⟩)]
  refine ⟨fun k' => ?_, ?_, ?_⟩
  · rw [Dict.get?_set, held_assign, h.held]
  · rw [hkeys]
    exact h.ordered
  · rw [hkeys]
    exact h.past

/-- A new key comes at the end. -/
theorem Represents.insert (h : Represents d s) {k : K} (hk : s.held k = none) (v : V) :
    Represents (d.set k v) ((s.access k).assign k v) := by
  have hnot := h.not_mem_keys hk
  have hkeys : (d.set k v).keys = d.keys ++ [k] := by
    rw [Dict.keys_set, if_neg hnot]
  refine ⟨fun k' => ?_, ?_, ?_⟩
  · rw [Dict.get?_set, held_assign, h.held]
    rfl
  · rw [hkeys]
    exact h.pairwise_access (List.Sublist.refl _) hnot
  · rw [hkeys]
    exact h.past_access (List.Sublist.refl _)

theorem Represents.drop (h : Represents d s) (k : K) : Represents (d.erase k) (s.drop k) := by
  have hsub : (d.erase k).keys.Sublist d.keys := by
    rw [Dict.keys_erase]
    exact List.filter_sublist
  refine ⟨fun k' => ?_, h.ordered.sublist hsub, fun a ha => h.past a (hsub.subset ha)⟩
  rw [Dict.get?_erase]
  show _ = Function.update s.held k none k'
  by_cases heq : k' = k
  · subst heq
    rw [if_pos rfl, Function.update_self]
  · rw [if_neg heq, Function.update_of_ne heq, h.held]

/-- The first entry with a value of `p` is the oldest. -/
theorem Represents.oldest (h : Represents d s) {p : V → Bool} {k : K} {v : V}
    (hfind : d.items.find? (fun item => p item.2) = some (k, v)) :
    s.Oldest (fun v => p v = true) k v := by
  obtain ⟨hp, before, after, hitems, hbefore⟩ := List.find?_eq_some_iff_append.mp hfind
  have hmem : (k, v) ∈ d.items := by
    rw [hitems]
    exact List.mem_append_right _ (List.mem_cons_self ..)
  refine ⟨(h.held k).symm.trans ((Dict.mem_items_iff d k v).mp hmem), hp,
    fun k' v' hheld hp' hne => ?_⟩
  have hmem' : (k', v') ∈ d.items := (Dict.mem_items_iff d k' v').mpr ((h.held k').trans hheld)
  rw [hitems] at hmem'
  rcases List.mem_append.mp hmem' with hin | hin
  · have hnot := hbefore _ hin
    simp [hp'] at hnot
  · have hin : (k', v') ∈ after := (List.mem_cons.mp hin).resolve_left fun heq =>
      hne (congrArg Prod.fst heq)
    have hordered := h.ordered
    unfold Dict.keys at hordered
    rw [hitems, List.map_append, List.map_cons] at hordered
    exact (List.pairwise_cons.mp (List.pairwise_append.mp hordered).2.1).1 k'
      (List.mem_map.mpr ⟨(k', v'), hin, rfl⟩)

end Recency

end Lib
