import Mathlib
/-!
# SortDedup — dropping repeated neighbours keeps the members

`Vec::dedup` drops each element equal to the one kept before it; no member is lost, and on a sorted list
no two are equal.
-/
namespace SortDedup

variable {α : Type} [DecidableEq α]

theorem mem_destutter' (x : α) : ∀ (l : List α) (a : α), x ∈ l.destutter' (· ≠ ·) a ↔ x = a ∨ x ∈ l
  | [], a => by simp
  | b :: l, a => by
    rw [List.destutter'_cons]
    split
    · rw [List.mem_cons, mem_destutter' x l b, List.mem_cons]
    · rename_i hab
      -- what is dropped equals what was kept before it
      obtain rfl : a = b := by simpa using hab
      rw [mem_destutter' x l a, List.mem_cons]
      tauto

theorem mem_destutter (x : α) (l : List α) : x ∈ l.destutter (· ≠ ·) ↔ x ∈ l := by
  cases l with
  | nil => exact Iff.rfl
  | cons a l => rw [List.destutter_cons', mem_destutter', List.mem_cons]

end SortDedup
