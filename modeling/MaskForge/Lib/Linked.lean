import Mathlib.Data.List.Perm.Subperm
import Mathlib.Data.Nat.Notation
import Mathlib.Tactic.Common
/-!
# Linked — lists threaded through an array

A free list and a chain of parents are the same thing: from a head, a link per element, and an end.  What a head leads
to is determined by the links, so it visits nothing twice, and links that are not on it may change.
-/

/-- The links lead from the head through these elements to the end. -/
inductive Linked {α : Type} (next : α → Option α) : Option α → List α → Prop where
  | nil : Linked next none []
  | cons {a : α} {l : List α} (h : Linked next (next a) l) : Linked next (some a) (a :: l)

namespace Linked

variable {α : Type} {next next' : α → Option α} {head : Option α} {l l' : List α} {a : α}

theorem of_none (h : Linked next none l) : l = [] := by
  cases h
  rfl

theorem of_some (h : Linked next (some a) l) : ∃ t, l = a :: t ∧ Linked next (next a) t := by
  cases h with
  | cons h => exact ⟨_, rfl, h⟩

/-- **What a head leads to is one list.** -/
theorem unique (h : Linked next head l) (h' : Linked next head l') : l = l' := by
  induction h generalizing l' with
  | nil => exact h'.of_none.symm
  | cons _ ih =>
    obtain ⟨t, rfl, ht⟩ := h'.of_some
    rw [ih ht]

/-- Every element leads on to a part of the list that is shorter. -/
theorem from_mem (h : Linked next head l) (ha : a ∈ l) : ∃ t, Linked next (next a) t ∧ t.length < l.length := by
  induction h with
  | nil => cases ha
  | cons h ih =>
    rcases List.mem_cons.1 ha with rfl | ha
    · exact ⟨_, h, Nat.lt_succ_self _⟩
    · obtain ⟨t, ht, hlen⟩ := ih ha
      exact ⟨t, ht, Nat.lt_succ_of_lt hlen⟩

/-- **It visits nothing twice**: a second visit would lead on to a list that is both shorter and the same. -/
theorem nodup (h : Linked next head l) : l.Nodup := by
  induction h with
  | nil => exact List.nodup_nil
  | cons h ih =>
    refine List.nodup_cons.2 ⟨fun ha => ?_, ih⟩
    obtain ⟨t, ht, hlen⟩ := h.from_mem ha
    rw [h.unique ht] at hlen
    exact Nat.lt_irrefl _ hlen

/-- Links off the list may change. -/
theorem congr (h : Linked next head l) (heq : ∀ a ∈ l, next' a = next a) : Linked next' head l := by
  induction h with
  | nil => exact .nil
  | cons _ ih =>
    refine .cons ?_
    rw [heq _ List.mem_cons_self]
    exact ih fun a ha => heq a (List.mem_cons_of_mem _ ha)

/-- A list of numbers below a bound is no longer than it. -/
theorem length_le {next : ℕ → Option ℕ} {head : Option ℕ} {l : List ℕ} {n : ℕ} (h : Linked next head l)
    (hlt : ∀ i ∈ l, i < n) : l.length ≤ n := by
  have hsub : l ⊆ List.range n := fun i hi => List.mem_range.2 (hlt i hi)
  simpa using (List.subperm_of_subset h.nodup hsub).length_le

end Linked
