import MaskForge.Lib.Forest
import MaskForge.Lib.Worklist
/-!
# Preorder — forests numbered in the order of their strings

When node numbers follow the lexicographic order of the strings that lead to the nodes (`Climbing`), a string names one
node, the edges can be read off the strings, and a depth-first walk that takes children by ascending key meets the nodes
as `0, 1, 2, …` (`preorder_eq_range`).
-/
namespace Forest

variable {κ : Type} {kids : Nat → List (κ × Nat)} {n : Nat} {lbl : Nat → List κ}

/-- Everything a walk meets is under an entry of its stack. -/
theorem preorder_under (hl : Labelled kids n lbl) : ∀ (f : Nat) (stack : List Nat), (∀ i ∈ stack, i < n) →
    ∀ x ∈ Worklist.preorder (fun b => (kids b).map Prod.snd) f stack, ∃ s ∈ stack, lbl s <+: lbl x
  | 0, stack, _, x, hx => by cases hx
  | f + 1, [], _, x, hx => by cases hx
  | f + 1, i :: rest, hs, x, hx => by
    have hi : i < n := hs i List.mem_cons_self
    rcases List.mem_cons.1 hx with rfl | hx
    · exact ⟨x, List.mem_cons_self, List.prefix_rfl⟩
    have hs' : ∀ j ∈ (kids i).map Prod.snd ++ rest, j < n := by
      intro j hj
      rcases List.mem_append.1 hj with hj | hj
      · obtain ⟨kc, hkc, rfl⟩ := List.mem_map.1 hj
        exact (hl.edge i hi kc hkc).2.2
      · exact hs j (List.mem_cons_of_mem _ hj)
    obtain ⟨s, hs, hpre⟩ := preorder_under hl f _ hs' x hx
    rcases List.mem_append.1 hs with hs | hs
    · obtain ⟨kc, hkc, rfl⟩ := List.mem_map.1 hs
      refine ⟨i, List.mem_cons_self, List.IsPrefix.trans ?_ hpre⟩
      exact ⟨[kc.1], (hl.edge i hi kc hkc).1.symm⟩
    · exact ⟨s, List.mem_cons_of_mem _ hs, hpre⟩

section Order

variable [LinearOrder κ] {top : List κ}

/-- Strings grow with the numbers and none is above `top`. -/
structure Climbing (n : Nat) (lbl : Nat → List κ) (top : List κ) : Prop where
  mono : ∀ i j, i < j → j < n → lbl i < lbl j
  below : ∀ i, i < n → lbl i ≤ top

theorem Climbing.inj (hc : Climbing n lbl top) {i j : Nat} (hi : i < n) (hj : j < n) (h : lbl i = lbl j) : i = j := by
  rcases Nat.lt_trichotomy i j with hlt | heq | hgt
  · exact absurd h (ne_of_lt (hc.mono i j hlt hj))
  · exact heq
  · exact absurd h.symm (ne_of_lt (hc.mono j i hgt hi))

theorem Climbing.lt_of_lbl (hc : Climbing n lbl top) {i j : Nat} (hi : i < n) (h : lbl i < lbl j) : i < j := by
  rcases Nat.lt_trichotomy i j with hlt | heq | hgt
  · exact hlt
  · subst heq
    exact absurd h (lt_irrefl _)
  · exact absurd (hc.mono j i hgt hi) (lt_asymm h)

/-- A fresh node whose string is above all others. -/
theorem Climbing.grow (hc : Climbing n lbl top) {l : List κ} (h : top < l) :
    Climbing (n + 1) (Function.update lbl n l) l := by
  refine ⟨?_, ?_⟩
  · intro i j hij hj
    rw [Function.update_of_ne (show i ≠ n by omega)]
    rcases Nat.lt_succ_iff_lt_or_eq.1 hj with hlt | rfl
    · rw [Function.update_of_ne (by omega)]
      exact hc.mono i j hij hlt
    · rw [Function.update_self]
      exact lt_of_le_of_lt (hc.below i hij) h
  · intro i hi
    rcases Nat.lt_succ_iff_lt_or_eq.1 hi with hlt | rfl
    · rw [Function.update_of_ne (by omega)]
      exact le_of_lt (lt_of_le_of_lt (hc.below i hlt) h)
    · rw [Function.update_self]

/-- One key leads to one child. -/
theorem Climbing.child_unique (hc : Climbing n lbl top) (hl : Labelled kids n lbl) {i : Nat} (hi : i < n)
    {a b : κ × Nat} (ha : a ∈ kids i) (hb : b ∈ kids i) (h : a.1 = b.1) : a = b := by
  obtain ⟨hla, -, han⟩ := hl.edge i hi a ha
  obtain ⟨hlb, -, hbn⟩ := hl.edge i hi b hb
  exact Prod.ext h (hc.inj han hbn (by rw [hla, hlb, h]))

theorem append_lt_of_lt {l m : List κ} (h : l < m) (hpre : ¬ l <+: m) (t : List κ) : l ++ t < m := by
  induction l generalizing m with
  | nil => exact absurd List.nil_prefix hpre
  | cons a l ih =>
    cases m with
    | nil => exact absurd h (List.not_lt_nil _)
    | cons b m =>
      rw [List.cons_append, List.cons_lt_cons_iff]
      rcases List.cons_lt_cons_iff.1 h with hab | ⟨rfl, hlm⟩
      · exact Or.inl hab
      · exact Or.inr ⟨rfl, ih hlm (fun hp => hpre (List.cons_prefix_cons.2 ⟨rfl, hp⟩))⟩

theorem le_of_prefixed {l m : List κ} (h : l <+: m) : l ≤ m := not_lt.1 (List.IsPrefix.le h)

/-- `a`, with whatever is under it, comes before `b`. -/
def Before (lbl : Nat → List κ) (a b : Nat) : Prop := lbl a < lbl b ∧ ¬ lbl a <+: lbl b

theorem Before.under_left {a b x : Nat} (h : Before lbl a b) (hx : lbl a <+: lbl x) : Before lbl x b := by
  obtain ⟨t, ht⟩ := hx
  refine ⟨?_, fun hp => h.2 (List.IsPrefix.trans ⟨t, ht⟩ hp)⟩
  rw [← ht]
  exact append_lt_of_lt h.1 h.2 t

theorem Before.lt_under {a b x : Nat} (h : Before lbl a b) (hx : lbl b <+: lbl x) : lbl a < lbl x :=
  lt_of_lt_of_le h.1 (le_of_prefixed hx)

/-- Siblings with ascending keys. -/
theorem Before.of_keys {a b : Nat} {l : List κ} {k k' : κ} (ha : lbl a = l ++ [k]) (hb : lbl b = l ++ [k'])
    (h : k < k') : Before lbl a b := by
  refine ⟨?_, ?_⟩
  · rw [ha, hb]
    exact List.append_left_lt (List.cons_lt_cons_iff.2 (Or.inl h))
  · rw [ha, hb, List.prefix_append_right_inj]
    intro hp
    exact absurd (List.cons_prefix_cons.1 hp).1 (ne_of_lt h)

/-- A walk's stack: inside the forest, every entry before the ones below it. -/
structure Stacked (n : Nat) (lbl : Nat → List κ) (stack : List Nat) : Prop where
  inside : ∀ i ∈ stack, i < n
  sorted : stack.Pairwise (Before lbl)

/-- Rows in the order of their keys. -/
def RowsAscend (kids : Nat → List (κ × Nat)) (n : Nat) : Prop := ∀ i, i < n → (kids i).Pairwise (fun a b => a.1 < b.1)

theorem Stacked.pop (hl : Labelled kids n lbl) (hrows : RowsAscend kids n) {i : Nat} {rest : List Nat}
    (h : Stacked n lbl (i :: rest)) : Stacked n lbl ((kids i).map Prod.snd ++ rest) := by
  have hi : i < n := h.inside i List.mem_cons_self
  obtain ⟨hhead, htail⟩ := List.pairwise_cons.1 h.sorted
  refine ⟨?_, List.pairwise_append.2 ⟨?_, htail, ?_⟩⟩
  · intro j hj
    rcases List.mem_append.1 hj with hj | hj
    · obtain ⟨kc, hkc, rfl⟩ := List.mem_map.1 hj
      exact (hl.edge i hi kc hkc).2.2
    · exact h.inside j (List.mem_cons_of_mem _ hj)
  · refine List.pairwise_map.2 ((hrows i hi).imp_of_mem ?_)
    intro a b ha hb hab
    exact .of_keys (hl.edge i hi a ha).1 (hl.edge i hi b hb).1 hab
  · intro a ha b hb
    obtain ⟨kc, hkc, rfl⟩ := List.mem_map.1 ha
    exact (hhead b hb).under_left ⟨[kc.1], (hl.edge i hi kc hkc).1.symm⟩

theorem preorder_sorted (hl : Labelled kids n lbl) (hrows : RowsAscend kids n) : ∀ (f : Nat) (stack : List Nat),
    Stacked n lbl stack →
      (Worklist.preorder (fun b => (kids b).map Prod.snd) f stack).Pairwise (fun a b => lbl a < lbl b)
  | 0, stack, _ => List.Pairwise.nil
  | f + 1, [], _ => List.Pairwise.nil
  | f + 1, i :: rest, h => by
    have hpop := h.pop hl hrows
    have hi : i < n := h.inside i List.mem_cons_self
    refine List.pairwise_cons.2 ⟨?_, preorder_sorted hl hrows f _ hpop⟩
    intro x hx
    obtain ⟨s, hs, hpre⟩ := preorder_under hl f _ hpop.inside x hx
    rcases List.mem_append.1 hs with hs | hs
    · obtain ⟨kc, hkc, rfl⟩ := List.mem_map.1 hs
      refine lt_of_lt_of_le ?_ (le_of_prefixed hpre)
      rw [(hl.edge i hi kc hkc).1]
      exact lt_of_le_of_ne (le_of_prefixed (List.prefix_append _ _)) (by simp)
    · exact ((List.pairwise_cons.1 h.sorted).1 s hs).lt_under hpre

/-- **A forest numbered in the order of its strings is walked in the order of its numbers.** -/
theorem preorder_eq_range {e : Nat} (hl : Labelled kids n lbl) (hr : Reached kids n lbl) (hc : Climbing n lbl top)
    (hrows : RowsAscend kids n) (hfew : ∀ i, i < n → (kids i).length ≤ e) :
    Worklist.preorder (fun b => (kids b).map Prod.snd) (Worklist.fuel n e) [0] = List.range n := by
  have hasc : Worklist.Ascending (fun b => (kids b).map Prod.snd) n e := by
    refine ⟨fun i hi => by rw [List.length_map]; exact hfew i hi, fun i hi c hkc => ?_⟩
    obtain ⟨kc, hrow, rfl⟩ := List.mem_map.1 hkc
    exact (hl.edge i hi kc hrow).2
  have hroot : ∀ i ∈ [0], i < n := by simpa using hl.inhabited
  obtain ⟨hin, hlt, hafter⟩ := Worklist.preorder_spec hasc (Worklist.fuel n e) [0] hroot
    (by rw [Worklist.weight_root])
  have hsorted := preorder_sorted hl hrows (Worklist.fuel n e) [0] ⟨hroot, List.pairwise_singleton _ _⟩
  have hup : (Worklist.preorder (fun b => (kids b).map Prod.snd) (Worklist.fuel n e) [0]).Pairwise (· < ·) :=
    hsorted.imp_of_mem (fun ha _ hab => hc.lt_of_lbl (hlt _ ha) hab)
  refine hup.eq_of_mem_iff List.pairwise_lt_range ?_
  intro x
  rw [List.mem_range]
  refine ⟨hlt x, fun hx => ?_⟩
  -- along the path to `x`, each node's children come after it
  have hwalk : ∀ {i j : Nat} {ks : List κ}, Path kids i ks j →
      i ∈ Worklist.preorder (fun b => (kids b).map Prod.snd) (Worklist.fuel n e) [0] →
      j ∈ Worklist.preorder (fun b => (kids b).map Prod.snd) (Worklist.fuel n e) [0] := by
    intro i j ks hp
    induction hp with
    | nil i => exact id
    | cons hk _ ih =>
      intro hmem
      obtain ⟨pre, post, hsplit⟩ := List.append_of_mem hmem
      refine ih ?_
      rw [hsplit]
      exact List.mem_append_right _ (List.mem_cons_of_mem _
        (hafter pre _ post hsplit _ (List.mem_map.2 ⟨_, hk, rfl⟩)))
  exact hwalk (hr x hx) (hin 0 List.mem_cons_self)

end Order

end Forest
