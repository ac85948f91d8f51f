import Mathlib.Algebra.BigOperators.Group.Finset.Basic
import Mathlib.Algebra.Order.BigOperators.Group.Finset
import Mathlib.Data.Fintype.BigOperators
import Mathlib.Tactic.Abel

/-!
# Counting over a family when one member changes

A reference count equals a sum over its users. An operation of one user changes one summand, and the
two lemmas here turn that into arithmetic on the sum.
-/

namespace Tally

variable {ι κ : Type*} [Fintype ι] [DecidableEq ι]

theorem sum_update {M : Type*} [AddCommMonoid M] (family : ι → κ) (f : κ → M) (i : ι) (x : κ) :
    (∑ j, f (Function.update family i x j)) + f (family i) = (∑ j, f (family j)) + f x := by
  have hsplit : ∀ g : ι → κ, ∑ j, f (g j) = f (g i) + ∑ j ∈ Finset.univ.erase i, f (g j) :=
    fun g => (Finset.add_sum_erase _ _ (Finset.mem_univ i)).symm
  have hrest : ∑ j ∈ Finset.univ.erase i, f (Function.update family i x j) =
      ∑ j ∈ Finset.univ.erase i, f (family j) :=
    Finset.sum_congr rfl fun j hj => by
      rw [Function.update_of_ne (Finset.ne_of_mem_erase hj)]
  rw [hsplit, hsplit family, hrest, Function.update_self]
  abel

theorem sum_exchange {M : Type*} [AddCommMonoid M] {f g : ι → M} {i : ι}
    (hsame : ∀ j, j ≠ i → g j = f j) : ∑ j, g j + f i = ∑ j, f j + g i := by
  have hg : g = Function.update f i (g i) := by
    funext j
    by_cases hj : j = i
    · subst hj
      rw [Function.update_self]
    · rw [Function.update_of_ne hj, hsame j hj]
  have hsum := sum_update f id i (g i)
  simp only [id_eq] at hsum
  rwa [← hg] at hsum

omit [DecidableEq ι] in
theorem le_sum (family : ι → κ) (f : κ → Nat) (i : ι) : f (family i) ≤ ∑ j, f (family j) :=
  Finset.single_le_sum (fun j _ => Nat.zero_le (f (family j))) (Finset.mem_univ i)

theorem add_le_sum (family : ι → κ) (f : κ → Nat) {i j : ι} (hne : i ≠ j) :
    f (family i) + f (family j) ≤ ∑ k, f (family k) := by
  rw [← Finset.add_sum_erase _ _ (Finset.mem_univ i)]
  exact Nat.add_le_add_left (Finset.single_le_sum (fun k _ => Nat.zero_le (f (family k)))
    (Finset.mem_erase.mpr ⟨hne.symm, Finset.mem_univ j⟩)) _

end Tally
