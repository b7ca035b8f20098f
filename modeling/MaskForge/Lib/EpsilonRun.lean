import Mathlib
/-!
# EpsilonRun — rules for where an automaton with empty steps can be after a word

The states an `εNFA` can be in after a word are closed under its start, its empty steps and its letters (`start`,
`empty`, `letter`), and are the least such (`induct`).
-/
namespace EpsilonRun

variable {α σ : Type} {M : εNFA α σ} {w : List α} {q r : σ} {a : α}

theorem start (h : q ∈ M.start) : q ∈ M.eval [] := εNFA.εClosure.base q h

theorem empty (h : q ∈ M.eval w) (hr : r ∈ M.step q none) : r ∈ M.eval w := by
  induction w using List.reverseRecOn with
  | nil => exact εNFA.εClosure.step q r hr h
  | append_singleton w a _ =>
    rw [M.eval_append_singleton, εNFA.mem_stepSet_iff] at h ⊢
    obtain ⟨p, hp, h⟩ := h
    exact ⟨p, hp, εNFA.εClosure.step q r hr h⟩

theorem letter (h : q ∈ M.eval w) (hr : r ∈ M.step q (some a)) : r ∈ M.eval (w ++ [a]) := by
  rw [M.eval_append_singleton, εNFA.mem_stepSet_iff]
  exact ⟨q, h, εNFA.εClosure.base r hr⟩

/-- **What the start has and every step keeps, every state reached has.** -/
theorem induct {P : List α → σ → Prop} (hstart : ∀ q ∈ M.start, P [] q)
    (hempty : ∀ w q r, P w q → r ∈ M.step q none → P w r)
    (hletter : ∀ w q r a, P w q → r ∈ M.step q (some a) → P (w ++ [a]) r) :
    ∀ {w : List α} {q : σ}, q ∈ M.eval w → P w q := by
  have hclosed : ∀ (w : List α) (S : Set σ), (∀ q ∈ S, P w q) → ∀ q, M.εClosure S q → P w q := by
    intro w S hS q hq
    induction hq with
    | base q hq => exact hS q hq
    | step q r hr _ ih => exact hempty w q r ih hr
  intro w
  induction w using List.reverseRecOn with
  | nil => exact fun hq => hclosed [] M.start hstart _ hq
  | append_singleton w a ih =>
    intro q hq
    rw [M.eval_append_singleton, εNFA.mem_stepSet_iff] at hq
    obtain ⟨p, hp, hq⟩ := hq
    exact hclosed (w ++ [a]) _ (fun r hr => hletter w p r a (ih hp) hr) q hq

theorem mem_accepts : w ∈ M.accepts ↔ ∃ q ∈ M.accept, q ∈ M.eval w := Iff.rfl

end EpsilonRun
