import Mathlib
/-!
# KeySort — lists of pairs sorted by their keys

Two lists without repeated keys hold the same pairs exactly when they are equal after sorting by key, and two lists that
correspond item by item still do when both are sorted by keys that correspond.
-/
namespace KeySort

variable {κ α β : Type}

/-- A list of pairs, sorted by key. -/
def sorted (le : κ → κ → Bool) (l : List (κ × β)) : List (κ × β) := l.mergeSort fun x y => le x.1 y.1

/-- A pair is known by its key where keys are not repeated. -/
theorem eq_of_key {l : List (κ × β)} (h : (l.map Prod.fst).Nodup) {p q : κ × β} (hp : p ∈ l) (hq : q ∈ l)
    (hkey : p.1 = q.1) : p = q :=
  List.inj_on_of_nodup_map h hp hq hkey

/-- **Sorting forgets the order and nothing else.** -/
theorem sorted_eq_iff {le : κ → κ → Bool} (htrans : ∀ a b c, le a b = true → le b c = true → le a c = true)
    (htotal : ∀ a b, (le a b || le b a) = true) (hantisymm : ∀ a b, le a b = true → le b a = true → a = b)
    {l l' : List (κ × β)} (h : (l.map Prod.fst).Nodup) : sorted le l = sorted le l' ↔ l.Perm l' := by
  have hperm : ∀ m : List (κ × β), (sorted le m).Perm m := fun m => List.mergeSort_perm m _
  constructor
  · intro heq
    exact (hperm l).symm.trans (heq ▸ hperm l')
  · intro hp
    have hpairwise : ∀ m : List (κ × β), (sorted le m).Pairwise fun x y => le x.1 y.1 = true :=
      List.pairwise_mergeSort (fun a b c => htrans a.1 b.1 c.1) fun a b => htotal a.1 b.1
    refine List.Perm.eq_of_pairwise (fun a b ha hb hab hba => ?_) (hpairwise l) (hpairwise l')
      ((hperm l).trans (hp.trans (hperm l').symm))
    exact eq_of_key h ((hperm l).mem_iff.1 ha) (hp.mem_iff.2 ((hperm l').mem_iff.1 hb)) (hantisymm _ _ hab hba)

/-- **Lists that correspond are sorted alike.** -/
theorem forall₂_mergeSort {R : α → β → Prop} {le : α → α → Bool} {le' : β → β → Bool}
    (hle : ∀ a b a' b', R a b → R a' b' → le a a' = le' b b') {as : List α} {bs : List β} (h : List.Forall₂ R as bs) :
    List.Forall₂ R (as.mergeSort le) (bs.mergeSort le') := by
  obtain ⟨hlen, hmem⟩ := List.forall₂_iff_zip.1 h
  have hleft : ((as.zip bs).mergeSort fun x y => le x.1 y.1).map Prod.fst = as.mergeSort le := by
    rw [List.map_mergeSort (s := le) fun _ _ _ _ => rfl, List.map_fst_zip (Nat.le_of_eq hlen)]
  have hright : ((as.zip bs).mergeSort fun x y => le x.1 y.1).map Prod.snd = bs.mergeSort le' := by
    rw [List.map_mergeSort (s := le') fun x hx y hy => hle _ _ _ _ (hmem hx) (hmem hy),
      List.map_snd_zip (Nat.le_of_eq hlen.symm)]
  rw [← hleft, ← hright, List.forall₂_map_left_iff, List.forall₂_map_right_iff, List.forall₂_same]
  exact fun x hx => hmem (List.mem_mergeSort.1 hx)

end KeySort
