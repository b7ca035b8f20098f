import Mathlib.Data.Nat.Notation
import Mathlib.Tactic.Common
/-!
# Bisect — halving an interval down to the place where a test turns

`bisect p lo hi` halves `[lo, hi)` on the test at its middle.  Where the test holds up to some place and not after it,
that place is the result.
-/
namespace Bisect

def bisect (p : Nat → Bool) (lo hi : Nat) : Nat :=
  if h : lo < hi then
    if p (lo + (hi - lo) / 2) then bisect p (lo + (hi - lo) / 2 + 1) hi else bisect p lo (lo + (hi - lo) / 2)
  else lo
  termination_by hi - lo

/-- The test holds before it does not. -/
def Turns (p : Nat → Bool) (lo hi : Nat) : Prop := ∀ i j, lo ≤ i → i < j → j < hi → p j = true → p i = true

/-- **The result is where the test turns.** -/
theorem bisect_spec (p : Nat → Bool) (lo hi : Nat) (hle : lo ≤ hi) (h : Turns p lo hi) :
    lo ≤ bisect p lo hi ∧ bisect p lo hi ≤ hi ∧ (∀ i, lo ≤ i → i < bisect p lo hi → p i = true) ∧
      ∀ i, bisect p lo hi ≤ i → i < hi → p i = false := by
  fun_induction bisect p lo hi with
  | case1 lo hi hlt hp ih =>
    obtain ⟨h1, h2, h3, h4⟩ := ih (by omega) (fun i j hi' hij hj => h i j (by omega) hij hj)
    refine ⟨by omega, h2, fun i hlo hi' => ?_, h4⟩
    rcases Nat.lt_trichotomy i (lo + (hi - lo) / 2) with hm | rfl | hm
    · exact h i _ hlo hm (by omega) hp
    · exact hp
    · exact h3 i (by omega) hi'
  | case2 lo hi hlt hp ih =>
    obtain ⟨h1, h2, h3, h4⟩ := ih (by omega) (fun i j hi' hij hj => h i j hi' hij (by omega))
    refine ⟨h1, by omega, h3, fun i hi' hhi => ?_⟩
    by_cases hm : i < lo + (hi - lo) / 2
    · exact h4 i hi' hm
    · rcases Nat.eq_or_lt_of_le (Nat.not_lt.1 hm) with heq | hm
      · exact heq ▸ Bool.eq_false_iff.2 hp
      · refine Bool.eq_false_iff.2 fun hpi => hp ?_
        exact h _ i (by omega) hm hhi hpi
  | case3 lo hi hlt =>
    exact ⟨Nat.le_refl _, hle, fun i h1 h2 => by omega, fun i h1 h2 => by omega⟩

end Bisect
