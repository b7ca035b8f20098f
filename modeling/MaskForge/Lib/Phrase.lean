import Mathlib
/-!
# Phrase — words put together from several languages

A word is cut into a word of each of several languages, with a word of a separator between any two of them or without
one. How many languages there are may be left open between two bounds.
-/
namespace MaskForge.Phrase

open Language
open scoped Computability

variable {α : Type}

/-- **A product cuts its words**, one piece for each of the languages. -/
theorem mem_prod : ∀ {Ls : List (Language α)} {w : List α},
    w ∈ Ls.prod ↔ ∃ ws, List.Forall₂ (fun (L : Language α) u => u ∈ L) Ls ws ∧ ws.flatten = w
  | [], w => by
    rw [List.prod_nil, mem_one]
    constructor
    · rintro rfl
      exact ⟨[], .nil, rfl⟩
    · rintro ⟨ws, hws, rfl⟩
      cases hws
      rfl
  | L :: Ls, w => by
    rw [List.prod_cons, mem_mul]
    constructor
    · rintro ⟨u, hu, v, hv, rfl⟩
      obtain ⟨ws, hws, rfl⟩ := mem_prod.1 hv
      exact ⟨u :: ws, .cons hu hws, rfl⟩
    · rintro ⟨ws, hws, rfl⟩
      obtain ⟨u, rest, hu, hrest, rfl⟩ := List.forall₂_cons_left_iff.1 hws
      exact ⟨u, hu, rest.flatten, mem_prod.2 ⟨rest, hrest, rfl⟩, rfl⟩

/-- **A sum takes its words from any** of the languages. -/
theorem mem_sum : ∀ {Ls : List (Language α)} {w : List α}, w ∈ Ls.sum ↔ ∃ L ∈ Ls, w ∈ L
  | [], w => by
    rw [List.sum_nil]
    exact ⟨fun h => absurd h (notMem_zero w), fun ⟨_, h, _⟩ => absurd h List.not_mem_nil⟩
  | L :: Ls, w => by
    rw [List.sum_cons, mem_add, mem_sum, List.exists_mem_cons_iff]

/-! ### Separators -/

/-- A word of every language in turn, with a word of the separator between any two. -/
def joined (sep : Language α) : List (Language α) → Language α
  | [] => 1
  | L :: Ls => L * (Ls.map (sep * ·)).prod

variable {sep L : Language α} {Ls Ms : List (Language α)}

theorem joined_append (hne : Ls ≠ []) (Ms : List (Language α)) :
    joined sep (Ls ++ Ms) = joined sep Ls * (Ms.map (sep * ·)).prod := by
  obtain ⟨L, Ls, rfl⟩ := List.exists_cons_of_ne_nil hne
  rw [List.cons_append, joined, joined, List.map_append, List.prod_append, mul_assoc]

theorem joined_concat (hne : Ls ≠ []) (L : Language α) : joined sep (Ls ++ [L]) = joined sep Ls * (sep * L) := by
  rw [joined_append hne, List.map_singleton, List.prod_singleton]

/-- **What is interspersed is joined.** -/
theorem prod_intersperse : ∀ Ls : List (Language α), (Ls.intersperse sep).prod = joined sep Ls
  | [] => rfl
  | [L] => by rw [List.intersperse_singleton, List.prod_singleton, joined, List.map_nil, List.prod_nil, mul_one]
  | L :: M :: Ls => by
    have hrest : ((M :: Ls).intersperse sep).prod = joined sep (M :: Ls) := prod_intersperse (M :: Ls)
    rw [List.intersperse_cons_cons, List.prod_cons, List.prod_cons, hrest, joined, joined, List.map_cons,
      List.prod_cons, mul_assoc]

/-- One language, often enough to fill a list. -/
theorem joined_replicate (n : ℕ) : joined sep (List.replicate (n + 1) L) = L * (sep * L) ^ n := by
  rw [List.replicate_succ, joined, List.map_replicate, List.prod_replicate]

/-! ### Bounds -/

/-- As many words of a language as the bounds allow. -/
def between (L : Language α) (min : ℕ) (max : Option ℕ) : Language α :=
  {w | ∃ n, min ≤ n ∧ (∀ m, max = some m → n ≤ m) ∧ w ∈ L ^ n}

theorem mem_between {w : List α} {min : ℕ} {max : Option ℕ} : w ∈ between L min max ↔
    ∃ ws : List (List α), (∀ u ∈ ws, u ∈ L) ∧ ws.flatten = w ∧ min ≤ ws.length ∧ ∀ m, max = some m → ws.length ≤ m := by
  constructor
  · rintro ⟨n, hmin, hmax, hw⟩
    obtain ⟨ws, rfl, rfl, hws⟩ := mem_pow.1 hw
    exact ⟨ws, hws, rfl, hmin, hmax⟩
  · rintro ⟨ws, hws, rfl, hmin, hmax⟩
    exact ⟨ws.length, hmin, hmax, mem_pow.2 ⟨ws, rfl, rfl, hws⟩⟩

theorem between_star : between L 0 none = L∗ := by
  ext w
  rw [kstar_eq_iSup_pow, mem_iSup]
  exact ⟨fun ⟨n, _, _, hw⟩ => ⟨n, hw⟩, fun ⟨n, hw⟩ => ⟨n, Nat.zero_le n, fun _ h => (by cases h), hw⟩⟩

theorem between_from (n : ℕ) : between L n none = L ^ n * L∗ := by
  ext w
  rw [kstar_eq_iSup_pow, mul_iSup, mem_iSup]
  constructor
  · rintro ⟨k, hk, _, hw⟩
    refine ⟨k - n, ?_⟩
    rwa [← pow_add, Nat.add_sub_cancel' hk]
  · rintro ⟨k, hw⟩
    rw [← pow_add] at hw
    exact ⟨n + k, Nat.le_add_right n k, fun _ h => (by cases h), hw⟩

/-- Up to as many words. -/
theorem between_upTo (k : ℕ) : between L 0 (some k) = (1 + L) ^ k := by
  induction k with
  | zero =>
    ext w
    rw [pow_zero]
    constructor
    · rintro ⟨n, _, hmax, hw⟩
      rw [Nat.le_zero.1 (hmax 0 rfl), pow_zero] at hw
      exact hw
    · intro hw
      exact ⟨0, Nat.le_refl 0, fun m _ => Nat.zero_le m, hw⟩
  | succ k ih =>
    rw [pow_succ', ← ih, add_mul, one_mul]
    ext w
    constructor
    · rintro ⟨n, _, hmax, hw⟩
      cases n with
      | zero => exact .inl ⟨0, Nat.le_refl 0, fun m _ => Nat.zero_le m, hw⟩
      | succ n =>
        rw [pow_succ'] at hw
        obtain ⟨u, hu, v, hv, rfl⟩ := mem_mul.1 hw
        refine .inr (append_mem_mul hu ⟨n, Nat.zero_le n, fun m hm => ?_, hv⟩)
        cases hm
        exact Nat.le_of_succ_le_succ (hmax (k + 1) rfl)
    · rintro (⟨n, _, hmax, hw⟩ | hw)
      · refine ⟨n, Nat.zero_le n, fun m hm => ?_, hw⟩
        cases hm
        exact Nat.le_succ_of_le (hmax k rfl)
      · obtain ⟨u, hu, v, ⟨n, _, hmax, hv⟩, rfl⟩ := mem_mul.1 hw
        refine ⟨n + 1, Nat.zero_le _, fun m hm => ?_, ?_⟩
        · cases hm
          exact Nat.succ_le_succ (hmax k rfl)
        · rw [pow_succ']
          exact append_mem_mul hu hv

theorem between_range {n m : ℕ} (h : n ≤ m) : between L n (some m) = L ^ n * (1 + L) ^ (m - n) := by
  rw [← between_upTo]
  ext w
  constructor
  · rintro ⟨k, hk, hmax, hw⟩
    rw [← Nat.add_sub_cancel' hk, pow_add] at hw
    obtain ⟨u, hu, v, hv, rfl⟩ := mem_mul.1 hw
    refine append_mem_mul hu ⟨k - n, Nat.zero_le _, fun j hj => ?_, hv⟩
    cases hj
    exact Nat.sub_le_sub_right (hmax m rfl) n
  · intro hw
    obtain ⟨u, hu, v, ⟨k, _, hmax, hv⟩, rfl⟩ := mem_mul.1 hw
    refine ⟨n + k, Nat.le_add_right n k, fun j hj => ?_, ?_⟩
    · cases hj
      have := hmax (m - n) rfl
      omega
    · rw [pow_add]
      exact append_mem_mul hu hv

/-! ### Series -/

/-- The languages of the first positions, joined; how many there are is one of the lengths. -/
def series (sep : Language α) (position : ℕ → Language α) (lengths : Set ℕ) : Language α :=
  {w | ∃ n ∈ lengths, w ∈ joined sep ((List.range n).map position)}

theorem joined_const (n : ℕ) : joined sep ((List.range (n + 1)).map fun _ => L) = L * (sep * L) ^ n := by
  rw [List.map_const', List.length_range, joined_replicate]

/-- **More positions, all alike**, come each behind a separator. -/
theorem joined_extend {position : ℕ → Language α} {base k : ℕ} (hbase : base ≠ 0) (h : ∀ i, base ≤ i → position i = L) :
    joined sep ((List.range (base + k)).map position) = joined sep ((List.range base).map position) *
    (sep * L) ^ k := by
  have hne : (List.range base).map position ≠ [] := by
    rw [Ne, List.map_eq_nil_iff, List.range_eq_nil]
    exact hbase
  have hmore : (List.range k).map (position ∘ (base + ·)) = List.replicate k L := by
    refine List.eq_replicate_iff.2 ⟨by rw [List.length_map, List.length_range], fun M hM => ?_⟩
    obtain ⟨i, _, rfl⟩ := List.mem_map.1 hM
    exact h _ (Nat.le_add_right base i)
  rw [List.range_add, List.map_append, List.map_map, joined_append hne, hmore, List.map_replicate, List.prod_replicate]

end MaskForge.Phrase
