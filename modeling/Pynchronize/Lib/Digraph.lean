import Mathlib.Logic.Relation

/-!
Cycles of a relation. `Acyclic` says that no element reaches itself; it is
kept by dropping edges (`Acyclic.mono`) and by adding edges out of one element
that does not thereby reach itself (`acyclic_of_new_source`).
-/

namespace Lib

open Relation

variable {V : Type*} {r s : V → V → Prop}

def Acyclic (r : V → V → Prop) : Prop := ∀ a, ¬ TransGen r a a

/-- Every edge out of `B` ends in `B`. -/
def Closed (r : V → V → Prop) (B : V → Prop) : Prop := ∀ a b, B a → r a b → B b

theorem Acyclic.mono (hs : Acyclic s) (hrs : ∀ a b, r a b → s a b) : Acyclic r :=
  fun a h => hs a (TransGen.mono hrs a a h)

/-- A path that uses a new edge, all of which leave `c`, passes through `c`. -/
theorem TransGen_old_or_through {c : V} (hs : ∀ a b, s a b → r a b ∨ a = c) {a b : V}
    (h : TransGen s a b) : TransGen r a b ∨ (ReflTransGen s a c ∧ TransGen s c b) := by
  induction h with
  | single hab =>
    rcases hs _ _ hab with h | rfl
    · exact Or.inl (TransGen.single h)
    · exact Or.inr ⟨ReflTransGen.refl, TransGen.single hab⟩
  | tail hpath hbc ih =>
    rcases ih with hold | ⟨hac, hcb⟩
    · rcases hs _ _ hbc with h | rfl
      · exact Or.inl (hold.tail h)
      · exact Or.inr ⟨hpath.to_reflTransGen, TransGen.single hbc⟩
    · exact Or.inr ⟨hac, hcb.tail hbc⟩

/-- Adding edges out of `c` closes a cycle only through `c`. -/
theorem acyclic_of_new_source {c : V} (hr : Acyclic r) (hs : ∀ a b, s a b → r a b ∨ a = c)
    (hc : ¬ TransGen s c c) : Acyclic s := by
  intro a ha
  rcases TransGen_old_or_through hs ha with h | ⟨hac, hca⟩
  · exact hr a h
  · exact hc (hca.trans_left hac)

theorem cycle_through_new_source {c a : V} (hr : Acyclic r) (hs : ∀ a b, s a b → r a b ∨ a = c)
    (ha : TransGen s a a) : TransGen s c c := by
  rcases TransGen_old_or_through hs ha with h | ⟨hac, hca⟩
  · exact absurd h (hr a)
  · exact hca.trans_left hac

theorem Closed.reach {B : V → Prop} (hB : Closed r B) {a b : V} (ha : B a)
    (h : ReflTransGen r a b) : B b := by
  induction h with
  | refl => exact ha
  | tail _ hbc ih => exact hB _ _ ih hbc

end Lib
