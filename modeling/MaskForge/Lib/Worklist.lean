import Mathlib
/-!
# Worklist — a depth-first stack loop over a forest numbered away from its roots

When every child's number exceeds its parent's, a stack of nodes has a weight that each pop lowers, whatever part of the
popped node's children is pushed back.  A loop given that much fuel ends with an empty stack; `preorder` is the loop
that only lists what it pops.
-/
namespace Worklist

/-- A forest on `0 .. n - 1` with at most `e` children a node, each numbered above its parent. -/
structure Ascending (kids : Nat → List Nat) (n e : Nat) : Prop where
  few : ∀ i, i < n → (kids i).length ≤ e
  above : ∀ i, i < n → ∀ c ∈ kids i, i < c ∧ c < n

/-- What a stack can still cost. -/
def weight (n e : Nat) (stack : List Nat) : Nat := (stack.map (fun i => (e + 1) ^ (n - i))).sum

theorem weight_append (n e : Nat) (a b : List Nat) : weight n e (a ++ b) = weight n e a + weight n e b := by
  simp [weight]

theorem weight_cons (n e i : Nat) (a : List Nat) : weight n e (i :: a) = (e + 1) ^ (n - i) + weight n e a := by
  simp [weight]

/-- Nodes above `i` weigh at most the next power each. -/
theorem weight_le_of_above (n e i : Nat) : ∀ (cs : List Nat), (∀ c ∈ cs, i < c ∧ c < n) →
    weight n e cs ≤ cs.length * (e + 1) ^ (n - (i + 1))
  | [], _ => by simp [weight]
  | c :: cs, h => by
    have hc := h c List.mem_cons_self
    have ih := weight_le_of_above n e i cs (fun d hd => h d (List.mem_cons_of_mem _ hd))
    have hp : (e + 1) ^ (n - c) ≤ (e + 1) ^ (n - (i + 1)) := Nat.pow_le_pow_right (by omega) (by omega)
    rw [weight_cons, List.length_cons, Nat.add_mul, Nat.one_mul]
    omega

/-- **Popping a node and pushing any few nodes above it lowers the weight.** -/
theorem weight_pop {n e i : Nat} (cs rest : List Nat) (hi : i < n) (hlen : cs.length ≤ e)
    (habove : ∀ c ∈ cs, i < c ∧ c < n) : weight n e (cs ++ rest) < weight n e (i :: rest) := by
  rw [weight_append, weight_cons]
  have h1 := weight_le_of_above n e i cs habove
  have h2 : cs.length * (e + 1) ^ (n - (i + 1)) ≤ e * (e + 1) ^ (n - (i + 1)) := Nat.mul_le_mul_right _ hlen
  have h3 : (e + 1) ^ (n - i) = (e + 1) ^ (n - (i + 1)) * (e + 1) := by
    rw [← Nat.pow_succ]
    congr 1
    omega
  have h4 : 0 < (e + 1) ^ (n - (i + 1)) := Nat.pow_pos (by omega)
  rw [h3, Nat.mul_add, Nat.mul_one, Nat.mul_comm _ e]
  omega

/-- The fuel that suffices from a single root. -/
def fuel (n e : Nat) : Nat := (e + 1) ^ n

theorem weight_root (n e : Nat) : weight n e [0] = fuel n e := by simp [weight, fuel]

/-- The nodes a stack loop pops, in order, the first child on top. -/
def preorder (kids : Nat → List Nat) : Nat → List Nat → List Nat
  | 0, _ => []
  | _ + 1, [] => []
  | f + 1, i :: rest => i :: preorder kids f (kids i ++ rest)

/-- **With fuel for the stack's weight the loop pops everything it ever pushes**: what is on the stack, and after each
popped node every child of it. -/
theorem preorder_spec {kids : Nat → List Nat} {n e : Nat} (hk : Ascending kids n e) : ∀ (f : Nat) (stack : List Nat),
    (∀ i ∈ stack, i < n) → weight n e stack ≤ f →
      (∀ i ∈ stack, i ∈ preorder kids f stack) ∧ (∀ i ∈ preorder kids f stack, i < n) ∧
      ∀ pre i post, preorder kids f stack = pre ++ i :: post → ∀ c ∈ kids i, c ∈ post
  | 0, [], _, _ => by simp [preorder]
  | 0, i :: rest, _, hw => by
    have : 0 < (e + 1) ^ (n - i) := Nat.pow_pos (by omega)
    rw [weight_cons] at hw
    omega
  | f + 1, [], _, _ => by simp [preorder]
  | f + 1, i :: rest, hs, hw => by
    have hi : i < n := hs i List.mem_cons_self
    have hdrop := weight_pop (kids i) rest hi (hk.few i hi) (hk.above i hi)
    have hs' : ∀ j ∈ kids i ++ rest, j < n := by
      intro j hj
      rcases List.mem_append.1 hj with hj | hj
      · exact (hk.above i hi j hj).2
      · exact hs j (List.mem_cons_of_mem _ hj)
    obtain ⟨hin, hlt, hafter⟩ := preorder_spec hk f (kids i ++ rest) hs' (by omega)
    refine ⟨?_, ?_, ?_⟩
    · intro j hj
      rcases List.mem_cons.1 hj with rfl | hj
      · exact List.mem_cons_self
      · exact List.mem_cons_of_mem _ (hin j (List.mem_append_right _ hj))
    · intro j hj
      rcases List.mem_cons.1 hj with rfl | hj
      · exact hi
      · exact hlt j hj
    · intro pre j post hsplit c hc
      cases pre with
      | nil =>
        simp only [preorder, List.nil_append, List.cons.injEq] at hsplit
        obtain ⟨rfl, rfl⟩ := hsplit
        exact hin c (List.mem_append_left _ hc)
      | cons x pre =>
        simp only [preorder, List.cons_append, List.cons.injEq] at hsplit
        exact hafter pre j post hsplit.2 c hc

end Worklist
