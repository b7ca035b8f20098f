import Mathlib
/-!
# Forest — edge-labelled trees numbered away from their root

Nodes are numbers, the root is 0, and every node carries the string of keys that leads to it.  `Labelled` says the
strings fit the edges; adding a fresh leaf keeps it (`Labelled.grow`), and so does a renumbering that keeps children
behind their parents (`Labelled.renumber`).  Strings are what makes such trees easy to reason about: two paths that end
at one node spell the same keys (`Path.label`).
-/
namespace Forest

variable {κ : Type} {kids kids' : Nat → List (κ × Nat)} {n : Nat} {lbl : Nat → List κ}

/-- The nodes a string of keys can lead to. -/
inductive Path (kids : Nat → List (κ × Nat)) : Nat → List κ → Nat → Prop where
  | nil (i : Nat) : Path kids i [] i
  | cons {i c j : Nat} {k : κ} {ks : List κ} : (k, c) ∈ kids i → Path kids c ks j → Path kids i (k :: ks) j

theorem Path.snoc {i j c : Nat} {ks : List κ} {k : κ} (h : Path kids i ks j) (hc : (k, c) ∈ kids j) :
    Path kids i (ks ++ [k]) c := by
  induction h with
  | nil i => exact .cons hc (.nil c)
  | cons hk _ ih => exact .cons hk (ih hc)

theorem Path.mono (hsub : ∀ i, ∀ kc ∈ kids i, kc ∈ kids' i) {i j : Nat} {ks : List κ} (h : Path kids i ks j) :
    Path kids' i ks j := by
  induction h with
  | nil i => exact .nil i
  | cons hk _ ih => exact .cons (hsub _ _ hk) ih

/-- Every node's string extends its parent's by the edge's key, and every child is numbered above its parent. -/
structure Labelled (kids : Nat → List (κ × Nat)) (n : Nat) (lbl : Nat → List κ) : Prop where
  root : lbl 0 = []
  inhabited : 0 < n
  edge : ∀ i, i < n → ∀ kc ∈ kids i, lbl kc.2 = lbl i ++ [kc.1] ∧ i < kc.2 ∧ kc.2 < n

/-- **A path spells the difference of its ends' strings.** -/
theorem Path.label (hl : Labelled kids n lbl) {i j : Nat} {ks : List κ} (hi : i < n) (h : Path kids i ks j) :
    lbl j = lbl i ++ ks ∧ j < n := by
  induction h with
  | nil i => simpa using hi
  | cons hk _ ih =>
    obtain ⟨hlbl, -, hlt⟩ := hl.edge _ hi _ hk
    obtain ⟨h1, h2⟩ := ih hlt
    refine ⟨?_, h2⟩
    rw [h1, hlbl, List.append_assoc]
    rfl

/-- `kids'` is `kids` with the one more edge `p —k→ n`. -/
def Grown (kids kids' : Nat → List (κ × Nat)) (n p : Nat) (k : κ) : Prop :=
  ∀ i kc, kc ∈ kids' i ↔ kc ∈ kids i ∨ (i = p ∧ kc = (k, n))

theorem Labelled.grow {p : Nat} {k : κ} (hl : Labelled kids n lbl) (hp : p < n) (hfresh : kids n = [])
    (hg : Grown kids kids' n p k) : Labelled kids' (n + 1) (Function.update lbl n (lbl p ++ [k])) := by
  have hpos := hl.inhabited
  refine ⟨?_, by omega, ?_⟩
  · rw [Function.update_of_ne (by omega)]
    exact hl.root
  · intro i hi kc hkc
    rcases (hg i kc).1 hkc with hold | ⟨rfl, rfl⟩
    · have hin : i < n := by
        rcases Nat.lt_succ_iff_lt_or_eq.1 hi with h | rfl
        · exact h
        · rw [hfresh] at hold
          cases hold
      obtain ⟨h1, h2, h3⟩ := hl.edge i hin kc hold
      rw [Function.update_of_ne (by omega), Function.update_of_ne (by omega)]
      exact ⟨h1, h2, by omega⟩
    · rw [Function.update_self, Function.update_of_ne (by omega)]
      exact ⟨rfl, hp, by omega⟩

/-- Every node is reached by its own string. -/
def Reached (kids : Nat → List (κ × Nat)) (n : Nat) (lbl : Nat → List κ) : Prop :=
  ∀ i, i < n → Path kids 0 (lbl i) i

theorem Reached.grow {p : Nat} {k : κ} (hr : Reached kids n lbl) (hp : p < n) (hg : Grown kids kids' n p k) :
    Reached kids' (n + 1) (Function.update lbl n (lbl p ++ [k])) := by
  have hsub : ∀ i, ∀ kc ∈ kids i, kc ∈ kids' i := fun i kc h => (hg i kc).2 (Or.inl h)
  intro i hi
  rcases Nat.lt_succ_iff_lt_or_eq.1 hi with hlt | rfl
  · rw [Function.update_of_ne (by omega)]
    exact (hr i hlt).mono hsub
  · rw [Function.update_self]
    exact ((hr p hp).mono hsub).snoc ((hg p (k, i)).2 (Or.inr ⟨rfl, rfl⟩))

/-- `order` lists old numbers by new ones, `finalOf` finds a new number for each child, behind its parent's. -/
structure Renumbers (kids : Nat → List (κ × Nat)) (order : List Nat) (finalOf : Nat → Nat) : Prop where
  root : order[0]? = some 0
  child : ∀ fi b, order[fi]? = some b → ∀ kc ∈ kids b, order[finalOf kc.2]? = some kc.2 ∧ fi < finalOf kc.2

/-- The renumbered children of a node. -/
def renumbered (kids : Nat → List (κ × Nat)) (order : List Nat) (finalOf : Nat → Nat) (fi : Nat) : List (κ × Nat) :=
  match order[fi]? with
  | none => []
  | some b => (kids b).map (fun kc => (kc.1, finalOf kc.2))

theorem Labelled.renumber {order : List Nat} {finalOf : Nat → Nat} (hl : Labelled kids n lbl)
    (hlt : ∀ b ∈ order, b < n) (hr : Renumbers kids order finalOf) :
    Labelled (renumbered kids order finalOf) order.length (fun fi => lbl (order[fi]?.getD 0)) := by
  refine ⟨?_, ?_, ?_⟩
  · simp only [hr.root, Option.getD_some]
    exact hl.root
  · exact (List.getElem?_eq_some_iff.1 hr.root).1
  · intro fi hfi kc hkc
    unfold renumbered at hkc
    have hb : order[fi]? = some order[fi] := List.getElem?_eq_getElem hfi
    rw [hb] at hkc
    obtain ⟨kc, hkc', rfl⟩ := List.mem_map.1 hkc
    obtain ⟨hc, hafter⟩ := hr.child fi _ hb kc hkc'
    simp only [hb, hc, Option.getD_some]
    refine ⟨(hl.edge _ (hlt _ (List.getElem_mem hfi)) kc hkc').1, hafter, ?_⟩
    exact (List.getElem?_eq_some_iff.1 hc).1

theorem Path.renumber {order : List Nat} {finalOf : Nat → Nat} (hr : Renumbers kids order finalOf) {i j : Nat}
    {ks : List κ} (h : Path kids i ks j) : ∀ fi, order[fi]? = some i →
      ∃ fj, order[fj]? = some j ∧ Path (renumbered kids order finalOf) fi ks fj := by
  induction h with
  | nil i => exact fun fi hfi => ⟨fi, hfi, .nil fi⟩
  | cons hk _ ih =>
    intro fi hfi
    obtain ⟨fj, hfj, hpath⟩ := ih _ (hr.child fi _ hfi _ hk).1
    refine ⟨fj, hfj, .cons ?_ hpath⟩
    unfold renumbered
    rw [hfi]
    exact List.mem_map.2 ⟨_, hk, rfl⟩

end Forest
