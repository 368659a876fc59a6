import Mathlib.Data.List.Basic

/-!
Traces in which events open things and close them, and what it takes that none
is opened again before it is closed.
-/

namespace Lib.Exclusive

variable {ε α : Type*} (opens closes : ε → α → Prop)

/-- `a` has been opened and not closed since. -/
def Open (trace : List ε) (a : α) : Prop :=
  ∃ before e after, trace = before ++ e :: after ∧ opens e a ∧ ∀ x ∈ after, ¬ closes x a

/-- Between two events that open the same thing there is one that closes it. -/
def Alternates (trace : List ε) : Prop :=
  ∀ before e between e' after a, trace = before ++ e :: (between ++ e' :: after) →
    opens e a → opens e' a → ∃ x ∈ between, closes x a

variable {opens closes}

theorem not_open_nil (a : α) : ¬ Open opens closes [] a := by
  rintro ⟨before, e, after, h, -⟩
  cases before <;> cases h

theorem alternates_nil : Alternates opens closes [] := by
  intro before e between e' after a h
  cases before <;> cases h

theorem open_concat (trace : List ε) (e : ε) (a : α) :
    Open opens closes (trace ++ [e]) a ↔
      opens e a ∨ Open opens closes trace a ∧ ¬ closes e a := by
  constructor
  · rintro ⟨before, x, after, heq, hopens, hclosed⟩
    rcases List.eq_nil_or_concat' after with rfl | ⟨after, last, rfl⟩
    · obtain ⟨rfl, hlast⟩ := List.append_inj' heq rfl
      obtain rfl := List.singleton_inj.mp hlast
      exact Or.inl hopens
    · rw [← List.cons_append, ← List.append_assoc] at heq
      obtain ⟨rfl, hlast⟩ := List.append_inj' heq rfl
      obtain rfl := List.singleton_inj.mp hlast
      refine Or.inr ⟨⟨before, x, after, rfl, hopens, fun y hy => ?_⟩, ?_⟩
      · exact hclosed y (List.mem_append_left _ hy)
      · exact hclosed e (List.mem_append_right _ (List.mem_singleton.mpr rfl))
  · rintro (hopens | ⟨⟨before, x, after, rfl, hopens, hclosed⟩, hnot⟩)
    · exact ⟨trace, e, [], rfl, hopens, fun _ h => by cases h⟩
    · refine ⟨before, x, after ++ [e], by simp, hopens, fun y hy => ?_⟩
      rcases List.mem_append.mp hy with hy | hy
      · exact hclosed y hy
      · obtain rfl := List.mem_singleton.mp hy
        exact hnot

theorem alternates_concat (trace : List ε) (e : ε) :
    Alternates opens closes (trace ++ [e]) ↔
      Alternates opens closes trace ∧ ∀ a, opens e a → ¬ Open opens closes trace a := by
  constructor
  · refine fun h => ⟨fun before x between y after a heq => ?_, ?_⟩
    · exact h before x between y (after ++ [e]) a (by simp [heq])
    · rintro a hopens ⟨before, x, after, rfl, hx, hclosed⟩
      obtain ⟨y, hy, hcloses⟩ := h before x after e [] a (by simp) hx hopens
      exact hclosed y hy hcloses
  · rintro ⟨h, hnot⟩ before x between y after a heq hx hy
    rcases List.eq_nil_or_concat' after with rfl | ⟨after, last, rfl⟩
    · rw [← List.cons_append, ← List.append_assoc] at heq
      obtain ⟨rfl, hlast⟩ := List.append_inj' heq rfl
      obtain rfl := List.singleton_inj.mp hlast
      by_contra hclosed
      exact hnot a hy ⟨before, x, between, rfl, hx, fun z hz hcloses => hclosed ⟨z, hz, hcloses⟩⟩
    · have heq : trace ++ [e] = (before ++ x :: (between ++ y :: after)) ++ [last] := by
        simp [heq]
      obtain ⟨rfl, -⟩ := List.append_inj' heq rfl
      exact h before x between y after a rfl hx hy

/-- An event that opens nothing closes at most what was open. -/
theorem alternates_concat_of_not_opens {trace : List ε} {e : ε} (h : ∀ a, ¬ opens e a) :
    Alternates opens closes (trace ++ [e]) ↔ Alternates opens closes trace := by
  rw [alternates_concat]
  exact and_iff_left fun a ha => absurd ha (h a)

section Openings

variable {f : α → ε} (hopens : ∀ a b, opens (f a) b ↔ a = b) (hcloses : ∀ a b, ¬ closes (f a) b)

include hopens hcloses

/-- Things that are opened one after another. -/
theorem open_append_map (trace : List ε) (as : List α) (b : α) :
    Open opens closes (trace ++ as.map f) b ↔ b ∈ as ∨ Open opens closes trace b := by
  induction as generalizing trace with
  | nil => simp
  | cons a as ih =>
    rw [List.map_cons, List.append_cons, ih, open_concat, hopens]
    simp only [hcloses, not_false_eq_true, and_true, List.mem_cons]
    rw [eq_comm (a := a), or_left_comm, or_assoc]

theorem alternates_append_map (trace : List ε) (as : List α) :
    Alternates opens closes (trace ++ as.map f) ↔
      Alternates opens closes trace ∧ as.Nodup ∧ ∀ a ∈ as, ¬ Open opens closes trace a := by
  induction as generalizing trace with
  | nil => simp
  | cons a as ih =>
    have hopen : ∀ b, Open opens closes (trace ++ [f a]) b ↔ a = b ∨ Open opens closes trace b := by
      intro b
      rw [open_concat, hopens]
      simp only [hcloses, not_false_eq_true, and_true]
    rw [List.map_cons, List.append_cons, ih, alternates_concat, List.nodup_cons]
    simp only [hopens, hopen, not_or, forall_eq', List.mem_cons, forall_eq_or_imp]
    constructor
    · rintro ⟨⟨h, ha⟩, hnodup, hrest⟩
      exact ⟨h, ⟨fun hmem => (hrest a hmem).1 rfl, hnodup⟩, ha, fun b hb => (hrest b hb).2⟩
    · rintro ⟨h, ⟨hmem, hnodup⟩, ha, hrest⟩
      exact ⟨⟨h, ha⟩, hnodup, fun b hb => ⟨fun heq => hmem (heq ▸ hb), hrest b hb⟩⟩

end Openings

theorem Alternates.of_append {trace rest : List ε} (h : Alternates opens closes (trace ++ rest)) :
    Alternates opens closes trace := by
  intro before e between e' after a heq
  exact h before e between e' (after ++ rest) a (by simp [heq])

end Lib.Exclusive
