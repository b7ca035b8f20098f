import Mathlib
/-!
# Kleene — rounds of a monotone operator on the subsets of a finite set

Started from nothing, an operator on the subsets of a set of `n` elements is at its least fixed point after `n` rounds.
-/
namespace Kleene

variable {α : Type} {F : Set α → Set α}

theorem iterate_mono (hF : Monotone F) : Monotone (fun k => F^[k] ∅) := by
  refine monotone_nat_of_le_succ fun k => ?_
  show F^[k] ∅ ⊆ F^[k + 1] ∅
  rw [Function.iterate_succ_apply]
  exact hF.iterate k (Set.empty_subset _)

/-- **As many rounds as there are elements reach a fixed point.** -/
theorem iterate_fixed (hF : Monotone F) (s : Finset α) (hs : ∀ A, F A ⊆ s) : F (F^[s.card] ∅) = F^[s.card] ∅ := by
  have hsub : ∀ k, F^[k] ∅ ⊆ (s : Set α)
    | 0 => Set.empty_subset _
    | k + 1 => by
      rw [Function.iterate_succ_apply']
      exact hs _
  have hfin : ∀ k, (F^[k] ∅).Finite := fun k => s.finite_toSet.subset (hsub k)
  -- The sizes grow until two rounds agree, and then no round changes anything.
  have hcard := Nat.stabilises_of_monotone (f := fun k => (F^[k] ∅).ncard) (b := s.card) (n := s.card + 1)
    (fun j k hjk => Set.ncard_le_ncard (iterate_mono hF hjk) (hfin k))
    (fun k => by
      rw [← Set.ncard_coe_finset]
      exact Set.ncard_le_ncard (hsub k) s.finite_toSet)
    (fun m hm => by
      have heq : F^[m] ∅ = F^[m + 1] ∅ :=
        Set.eq_of_subset_of_ncard_le (iterate_mono hF (Nat.le_succ m)) (Nat.le_of_eq hm.symm) (hfin (m + 1))
      show (F^[m + 1] ∅).ncard = (F^[m + 2] ∅).ncard
      rw [Function.iterate_succ_apply' F (m + 1), ← heq, ← Function.iterate_succ_apply' F m]
      exact hm)
    (Nat.le_succ _)
  have heq := Set.eq_of_subset_of_ncard_le (iterate_mono hF (Nat.le_succ s.card)) (Nat.le_of_eq hcard) (hfin _)
  rw [← Function.iterate_succ_apply' F s.card]
  exact heq.symm

end Kleene
