import Mathlib
/-!
# StackHeight — how high the stack of a depth-first walk grows

A walk pops a node and pushes its children, the last child on top.  A pruned walk leaves out what it likes and keeps
the order of the rest.  From a stack that contains the pruned one the full walk works off what is on top until it pops
the same node, and contains the pruned stack again (`Pruned.caught_up`).  So the height of the full walk bounds that of
every pruned one.
-/
namespace StackHeight

open Relation (ReflTransGen)

variable {α : Type} (kids : α → List α)

/-- One pop of the full walk. -/
inductive Full : List α → List α → Prop where
  | pop (n : α) (rest : List α) : Full (n :: rest) ((kids n).reverse ++ rest)

/-- One pop of a walk that pushes some of the children. -/
inductive Pruned : List α → List α → Prop where
  | pop (n : α) (rest : List α) {pushed : List α} : pushed.Sublist (kids n).reverse →
      Pruned (n :: rest) (pushed ++ rest)

/-- The heights of the stacks a full walk goes through. -/
def heights (stack : List α) : Set Nat := {k | ∃ s, ReflTransGen (Full kids) stack s ∧ s.length = k}

variable {kids}

/-- What is on top of a stack is worked off, when every node's own subtree is. -/
theorem drain_append : ∀ (top rest : List α), (∀ n ∈ top, ∀ below, ReflTransGen (Full kids) (n :: below) below) →
    ReflTransGen (Full kids) (top ++ rest) rest
  | [], _, _ => .refl
  | n :: top, rest, h =>
    (h n List.mem_cons_self (top ++ rest)).trans
      (drain_append top rest (fun m hm => h m (List.mem_cons_of_mem _ hm)))

theorem drain_one (hwf : WellFounded fun c n => c ∈ kids n) (n : α) :
    ∀ rest, ReflTransGen (Full kids) (n :: rest) rest := by
  induction n using hwf.induction with
  | h n ih =>
    intro rest
    refine .head (.pop n rest) (drain_append _ _ (fun c hc => ih c ?_))
    exact List.mem_reverse.1 hc

/-- **The full walk works off any part of its stack**, when no chain of children goes on for ever. -/
theorem drain (hwf : WellFounded fun c n => c ∈ kids n) (top rest : List α) :
    ReflTransGen (Full kids) (top ++ rest) rest :=
  drain_append top rest (fun n _ => drain_one hwf n)

/-- **The full walk catches up with one pruned pop.** -/
theorem Pruned.caught_up (hwf : WellFounded fun c n => c ∈ kids n) {p p' s : List α} (h : Pruned kids p p')
    (hps : p.Sublist s) : ∃ s', ReflTransGen (Full kids) s s' ∧ p'.Sublist s' := by
  cases h with
  | pop n rest hpushed =>
    obtain ⟨l, below, rfl, hn, hrest⟩ := List.cons_sublist_iff.1 hps
    obtain ⟨above, beside, rfl⟩ := List.append_of_mem hn
    refine ⟨(kids n).reverse ++ (beside ++ below), ?_, ?_⟩
    · -- what lies above the popped node goes first
      rw [List.append_assoc, List.cons_append]
      exact (drain hwf above _).tail (.pop n _)
    · exact hpushed.append (hrest.trans (List.sublist_append_right beside below))

/-- **A pruned walk's stack is at every moment part of a stack of the full walk.** -/
theorem pruned_sublist (hwf : WellFounded fun c n => c ∈ kids n) {stack p : List α}
    (h : ReflTransGen (Pruned kids) stack p) : ∃ s, ReflTransGen (Full kids) stack s ∧ p.Sublist s := by
  induction h with
  | refl => exact ⟨stack, .refl, List.Sublist.refl _⟩
  | tail _ hstep ih =>
    obtain ⟨s, hs, hps⟩ := ih
    obtain ⟨s', hs', hps'⟩ := hstep.caught_up hwf hps
    exact ⟨s', hs.trans hs', hps'⟩

/-- **No pruned walk is higher than the full one.** -/
theorem pruned_le (hwf : WellFounded fun c n => c ∈ kids n) {stack p : List α} {m : Nat}
    (hm : m ∈ upperBounds (heights kids stack)) (h : ReflTransGen (Pruned kids) stack p) : p.length ≤ m := by
  obtain ⟨s, hs, hps⟩ := pruned_sublist hwf h
  exact Nat.le_trans hps.length_le (hm ⟨s, hs, rfl⟩)

/-! ### The heights from one pop on -/

theorem heights_nil : heights kids [] = {0} := by
  ext k
  constructor
  · rintro ⟨s, hs, rfl⟩
    rcases hs.cases_head with rfl | ⟨_, hstep, -⟩
    · rfl
    · cases hstep
  · rintro rfl
    exact ⟨[], .refl, rfl⟩

theorem heights_cons (n : α) (rest : List α) :
    heights kids (n :: rest) = insert (rest.length + 1) (heights kids ((kids n).reverse ++ rest)) := by
  ext k
  constructor
  · rintro ⟨s, hs, rfl⟩
    rcases hs.cases_head with rfl | ⟨_, hstep, hs⟩
    · exact Or.inl rfl
    · cases hstep
      exact Or.inr ⟨s, hs, rfl⟩
  · rintro (rfl | ⟨s, hs, rfl⟩)
    · exact ⟨n :: rest, .refl, rfl⟩
    · exact ⟨s, .head (.pop n rest) hs, rfl⟩

end StackHeight
