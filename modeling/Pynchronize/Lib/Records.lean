import Mathlib.Data.List.Basic

/-!
Lists whose entries are known by their index: new ones come at the end, and old
ones are changed in place.
-/

namespace Lib

variable {α β : Type*} {l : List α} {x y : α} {i j : ℕ}

theorem getElem?_concat_cases (h : (l ++ [x])[i]? = some y) :
    l[i]? = some y ∨ i = l.length ∧ y = x := by
  have hlt : i < (l ++ [x]).length := (List.getElem?_eq_some_iff.mp h).1
  rw [List.length_append, List.length_singleton] at hlt
  rcases Nat.lt_or_ge i l.length with hold | hlast
  · rw [List.getElem?_append_left hold] at h
    exact Or.inl h
  · obtain rfl : i = l.length := by omega
    rw [List.getElem?_concat_length] at h
    exact Or.inr ⟨rfl, (Option.some.inj h).symm⟩

theorem getElem?_set_cases (h : (l.set i x)[j]? = some y) :
    j = i ∧ y = x ∨ j ≠ i ∧ l[j]? = some y := by
  have hlt : j < (l.set i x).length := (List.getElem?_eq_some_iff.mp h).1
  rw [List.length_set] at hlt
  rcases eq_or_ne i j with rfl | hne
  · rw [List.getElem?_set_self hlt] at h
    exact Or.inl ⟨rfl, (Option.some.inj h).symm⟩
  · rw [List.getElem?_set_ne hne] at h
    exact Or.inr ⟨hne.symm, h⟩

/-- An entry stays where it is when others come behind it. -/
theorem getElem?_append_of_some (h : l[i]? = some x) (new : List α) :
    (l ++ new)[i]? = some x :=
  (List.getElem?_append_left (List.getElem?_eq_some_iff.mp h).1).trans h

theorem forall_entry_iff {γ : Type*} {P : α → γ → Prop} (h : l[i]? = some x) :
    (∀ a c, l[i]? = some a → P a c) ↔ ∀ c, P x c := by
  constructor
  · intro hall c
    exact hall x c h
  · intro hall a c ha
    obtain rfl := Option.some.inj (h.symm.trans ha)
    exact hall c

theorem getElem?_set_of_some (h : l[i]? = some x) (y : α) : (l.set i y)[i]? = some y :=
  List.getElem?_set_self (List.getElem?_eq_some_iff.mp h).1

theorem set_concat_length (l : List α) (x y : α) : (l ++ [x]).set l.length y = l ++ [y] := by
  rw [List.set_append_right _ _ (Nat.le_refl _), Nat.sub_self]
  rfl

/-- A change that `f` does not see. -/
theorem map_set_of_eq (f : α → β) (h : l[i]? = some x) (hf : f y = f x) :
    (l.set i y).map f = l.map f := by
  apply List.ext_getElem?
  intro k
  rw [List.getElem?_map, List.getElem?_map]
  rcases eq_or_ne i k with rfl | hne
  · rw [getElem?_set_of_some h, h]
    exact congrArg some hf
  · rw [List.getElem?_set_ne hne]

end Lib
