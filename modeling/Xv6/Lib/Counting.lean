import Mathlib.Algebra.BigOperators.Group.Finset.Piecewise
import Mathlib.Algebra.Order.BigOperators.Group.Finset

/-!
# Sums over tables

How a sum over the entries of a table changes with one entry.
-/

namespace Fin

variable {n : ℕ} {α M : Type*} [AddCommMonoid M]

lemma sum_update (g : Fin n → M) (i v) : ∑ j, Function.update g i v j + g i = ∑ j, g j + v := by
  rw [Finset.sum_update_of_mem (Finset.mem_univ i), ← Finset.add_sum_erase _ g (Finset.mem_univ i),
    Finset.sdiff_singleton_eq_erase]
  ac_rfl

lemma sum_comp_update (f : α → M) (t : Fin n → α) (i v) :
    ∑ j, f (Function.update t i v j) + f (t i) = ∑ j, f (t j) + f v := by
  have eq := sum_update (fun j => f (t j)) i (f v)
  rw [← eq]
  congr 2
  funext j
  by_cases ij : j = i
  · simp [ij]
  · simp [ij]

variable [PartialOrder M] [CanonicallyOrderedAdd M]

end Fin
