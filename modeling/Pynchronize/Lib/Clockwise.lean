import Mathlib.Data.List.Rotate
import Mathlib.Data.List.TakeWhile
import Mathlib.Order.Lattice

/-!
Walks around a circle. The points of a sorted list are met from some place on and
around the end; the owners of the points are told apart by their first points.
-/

namespace Lib

/-! ## First occurrences -/

section EraseDups

variable {α β : Type*} [DecidableEq β]

theorem eraseDups_concat (l : List β) (b : β) :
    (l ++ [b]).eraseDups = if b ∈ l.eraseDups then l.eraseDups else l.eraseDups ++ [b] := by
  rw [List.eraseDups_append]
  by_cases h : b ∈ l
  · rw [if_pos (List.mem_eraseDups.mpr h)]
    simp [List.removeAll, h]
  · rw [if_neg fun hmem => h (List.mem_eraseDups.mp hmem)]
    simp [List.removeAll, h, List.eraseDups_cons]

/-- What is not among the first elements can be taken out without a change to them. -/
theorem take_erase_of_notMem {l : List β} {b : β} {n : ℕ} (hb : b ∉ l.take n) :
    (l.erase b).take n = l.take n := by
  by_cases hn : n ≤ l.length
  · have hsplit := List.take_append_drop n l
    calc (l.erase b).take n = ((l.take n ++ l.drop n).erase b).take n := by rw [hsplit]
      _ = (l.take n ++ (l.drop n).erase b).take n := by rw [List.erase_append_right _ hb]
      _ = l.take n := List.take_left' (List.length_take_of_le hn)
  · have hall : l.take n = l := List.take_of_length_le (by omega)
    rw [hall] at hb
    rw [List.erase_of_not_mem hb]

/-- An owner whose first point comes earlier comes earlier. -/
theorem pairwise_eraseDups {R : α → α → Prop} (f : α → Option β) {l : List α}
    (h : l.Pairwise R) : (l.filterMap f).eraseDups.Pairwise fun a b =>
      ∃ x ∈ l, f x = some a ∧ ∀ y ∈ l, f y = some b → R x y := by
  induction l generalizing f with
  | nil => exact List.Pairwise.nil
  | cons x l ih =>
    obtain ⟨hx, hl⟩ := List.pairwise_cons.mp h
    cases hfx : f x with
    | none =>
      rw [List.filterMap_cons_none hfx]
      refine (ih f hl).imp fun {a b} ⟨x', hx', ha, hall⟩ => ⟨x', List.mem_cons_of_mem _ hx', ha,
        fun y hy hb => ?_⟩
      rcases List.mem_cons.mp hy with rfl | hy
      · rw [hfx] at hb
        cases hb
      · exact hall y hy hb
    | some c =>
      rw [List.filterMap_cons_some hfx, List.eraseDups_cons, List.filter_filterMap]
      have hne : ∀ {b}, b ∈ (l.filterMap fun y => (f y).filter fun b => !b == c).eraseDups →
          b ≠ c := by
        intro b hb
        obtain ⟨y, -, hy⟩ := List.mem_filterMap.mp (List.mem_eraseDups.mp hb)
        simpa using (Option.filter_eq_some_iff.mp hy).2
      have hlater : ∀ {b y}, b ≠ c → y ∈ x :: l → f y = some b → y ∈ l := by
        intro b y hb hy hfy
        rcases List.mem_cons.mp hy with rfl | hy
        · rw [hfx] at hfy
          exact absurd (Option.some.inj hfy).symm hb
        · exact hy
      refine List.pairwise_cons.mpr ⟨fun b hb => ?_, ?_⟩
      · exact ⟨x, List.mem_cons_self .., hfx, fun y hy hfy => hx y (hlater (hne hb) hy hfy)⟩
      · refine (ih _ hl).imp_of_mem fun {a b} _ hb ⟨x', hx', ha, hall⟩ =>
          ⟨x', List.mem_cons_of_mem _ hx', (Option.filter_eq_some_iff.mp ha).1, fun y hy hfy => ?_⟩
        refine hall y (hlater (hne hb) hy hfy) (Option.filter_eq_some_iff.mpr ⟨hfy, ?_⟩)
        simpa using hne hb

end EraseDups

/-! ## The order of a walk -/

section Before

variable {α β : Type*} [LinearOrder α]

/-- A walk upwards from `start`, and from the least point on when there is nothing above, meets
    `x` before `y`. -/
def Before (start x y : α) : Prop := start ≤ x ∧ y < start ∨ (start ≤ x ↔ start ≤ y) ∧ x < y

theorem Before.asymm {start x y : α} (h : Before start x y) : ¬ Before start y x := by
  rintro (⟨hy, hx⟩ | ⟨hsame', hlt'⟩)
  · rcases h with ⟨hx', -⟩ | ⟨hsame, -⟩
    · exact absurd hx' hx.not_ge
    · exact absurd (hsame.mpr hy) hx.not_ge
  · rcases h with ⟨hx, hy⟩ | ⟨-, hlt⟩
    · exact absurd (hsame'.mpr hx) hy.not_ge
    · exact lt_asymm hlt hlt'

/-- A walk from the place where `start` would stand in a sorted list. -/
theorem pairwise_rotate {l : List α} (hl : l.Pairwise (· < ·)) (start : α) :
    (l.rotate (l.takeWhile (· < start)).length).Pairwise (Before start) := by
  have hbelow : ∀ x ∈ l.takeWhile (· < start), x < start := fun x hx =>
    of_decide_eq_true (List.mem_takeWhile_imp hx :)
  have habove : ∀ x ∈ l.dropWhile (· < start), start ≤ x := by
    intro x hx
    cases hdrop : l.dropWhile (· < start) with
    | nil =>
      rw [hdrop] at hx
      cases hx
    | cons y rest =>
      have hy : start ≤ y := by
        have := List.head_dropWhile_not (fun x => decide (x < start))
          (by rw [hdrop]; exact List.cons_ne_nil y rest)
        simpa [hdrop] using this
      have hsorted : (y :: rest).Pairwise (· < ·) :=
        hdrop ▸ hl.sublist (List.dropWhile_sublist _)
      rw [hdrop] at hx
      rcases List.mem_cons.mp hx with rfl | hx
      · exact hy
      · exact hy.trans ((List.pairwise_cons.mp hsorted).1 x hx).le
  have hsplit : l.takeWhile (· < start) ++ l.dropWhile (· < start) = l :=
    List.takeWhile_append_dropWhile
  have hrotate : l.rotate (l.takeWhile (· < start)).length =
      l.dropWhile (· < start) ++ l.takeWhile (· < start) := by
    have := List.rotate_append_length_eq (l.takeWhile (· < start)) (l.dropWhile (· < start))
    rwa [hsplit] at this
  rw [hrotate]
  refine List.pairwise_append.mpr ⟨?_, ?_, fun x hx y hy => Or.inl ⟨habove x hx, hbelow y hy⟩⟩
  · refine (hl.sublist (List.dropWhile_sublist _)).imp_of_mem fun {x y} hx hy hlt =>
      Or.inr ⟨?_, hlt⟩
    exact iff_of_true (habove x hx) (habove y hy)
  · refine (hl.sublist (List.takeWhile_sublist _)).imp_of_mem fun {x y} hx hy hlt =>
      Or.inr ⟨?_, hlt⟩
    exact iff_of_false (hbelow x hx).not_ge (hbelow y hy).not_ge

/-- The first point of `a` on the walk comes before every point of `b`. -/
def FirstBefore (start : α) (points : β → Set α) (a b : β) : Prop :=
  ∃ x ∈ points a, ∀ y ∈ points b, Before start x y

theorem FirstBefore.asymm {start : α} {points : β → Set α} {a b : β}
    (h : FirstBefore start points a b) : ¬ FirstBefore start points b a := by
  obtain ⟨x, hx, hall⟩ := h
  rintro ⟨y, hy, hall'⟩
  exact (hall y hy).asymm (hall' x hx)

end Before

end Lib
