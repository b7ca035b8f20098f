import Mathlib
/-!
# Derivative — a machine that reads what is left of a language

The words that complete a letter to a word of a language are its quotient by the letter.  The quotients of a product
are told by those of its factors, so a stack of languages is read through its top.  A machine whose states stand for
languages, and whose steps stand for quotients, refuses a word exactly where no word of the language goes on.
-/
namespace Derivative

open Language

variable {α : Type} {a b : α} {u : List α} {L M N : Language α}

/-! ## Quotients by a letter -/

theorem mem_quotient : u ∈ L.leftQuotient [a] ↔ a :: u ∈ L := Iff.rfl

theorem quotient_cons (L : Language α) (a : α) (u : List α) :
    L.leftQuotient (a :: u) = (L.leftQuotient [a]).leftQuotient u :=
  L.leftQuotient_append [a] u

theorem quotient_one : (1 : Language α).leftQuotient [a] = 0 := by
  ext u
  rw [mem_quotient, mem_one]
  exact iff_of_false (List.cons_ne_nil a u) (notMem_zero u)

theorem quotient_add : (L + M).leftQuotient [a] = L.leftQuotient [a] + M.leftQuotient [a] := rfl

/-- One word. -/
def word (u : List α) : Language α := {u}

theorem mem_word {v : List α} : v ∈ word u ↔ v = u := Iff.rfl

theorem nil_notMem_word : [] ∉ word (a :: u) := fun h => List.cons_ne_nil a u (mem_word.1 h).symm

theorem quotient_word : (word (a :: u)).leftQuotient [a] = word u := by
  ext v
  rw [mem_quotient, mem_word, mem_word, List.cons.injEq, eq_self, true_and]

theorem quotient_word_ne (h : b ≠ a) : (word (a :: u)).leftQuotient [b] = 0 := by
  ext v
  rw [mem_quotient, mem_word, List.cons.injEq]
  exact iff_of_false (fun hv => h hv.1) (notMem_zero v)

theorem word_nil : word ([] : List α) = 1 := rfl

theorem nil_mem_mul : [] ∈ L * M ↔ [] ∈ L ∧ [] ∈ M := by
  rw [mem_mul]
  constructor
  · rintro ⟨u, hu, v, hv, huv⟩
    obtain ⟨rfl, rfl⟩ := List.append_eq_nil_iff.1 huv
    exact ⟨hu, hv⟩
  · rintro ⟨hu, hv⟩
    exact ⟨[], hu, [], hv, rfl⟩

/-- **A letter of a product is a letter of its first factor, or of the second if the first can be empty.** -/
theorem mem_quotient_mul :
    u ∈ (L * M).leftQuotient [a] ↔ u ∈ L.leftQuotient [a] * M ∨ [] ∈ L ∧ u ∈ M.leftQuotient [a] := by
  rw [mem_quotient, mem_mul, mem_mul]
  constructor
  · rintro ⟨v, hv, w, hw, hvw⟩
    cases v with
    | nil => exact .inr ⟨hv, mem_quotient.2 (hvw ▸ hw)⟩
    | cons x v =>
      obtain ⟨rfl, rfl⟩ := List.cons.inj hvw
      exact .inl ⟨v, hv, w, hw, rfl⟩
  · rintro (⟨v, hv, w, hw, rfl⟩ | ⟨hnil, hu⟩)
    · exact ⟨a :: v, hv, w, hw, rfl⟩
    · exact ⟨[], hnil, a :: u, hu, rfl⟩

theorem quotient_mul (h : [] ∉ L) : (L * M).leftQuotient [a] = L.leftQuotient [a] * M := by
  ext u
  rw [mem_quotient_mul]
  exact or_iff_left fun hu => h hu.1

theorem quotient_mul_nil (h : [] ∈ L) : (L * M).leftQuotient [a] = L.leftQuotient [a] * M + M.leftQuotient [a] := by
  ext u
  rw [mem_quotient_mul, mem_add]
  exact or_congr_right (and_iff_right h)

/-- A first factor that does not go on with the letter leaves it to the second. -/
theorem quotient_mul_skip (h : [] ∈ L) (hL : L.leftQuotient [a] = 0) :
    (L * M).leftQuotient [a] = M.leftQuotient [a] := by
  rw [quotient_mul_nil h, hL, zero_mul, zero_add]

/-- A letter the second factor does not start with is the first one's. -/
theorem quotient_mul_keep (hM : M.leftQuotient [a] = 0) : (L * M).leftQuotient [a] = L.leftQuotient [a] * M := by
  by_cases h : [] ∈ L
  · rw [quotient_mul_nil h, hM, add_zero]
  · exact quotient_mul h

theorem eq_zero_iff : L = 0 ↔ ∀ u, u ∉ L := by
  constructor
  · rintro rfl u
    exact notMem_zero u
  · intro h
    ext u
    exact iff_of_false (h u) (notMem_zero u)

/-! ## Letters that may be repeated -/

/-- Words of letters of one kind. -/
def letters (p : α → Prop) : Language α := {u | ∀ a ∈ u, p a}

section Letters
variable {p : α → Prop}

theorem mem_letters : u ∈ letters p ↔ ∀ a ∈ u, p a := Iff.rfl

theorem nil_mem_letters : [] ∈ letters p := fun _ h => absurd h List.not_mem_nil

theorem quotient_letters (h : p a) : (letters p).leftQuotient [a] = letters p := by
  ext u
  rw [mem_quotient, mem_letters, mem_letters, List.forall_mem_cons]
  exact and_iff_right h

theorem quotient_letters_not (h : ¬p a) : (letters p).leftQuotient [a] = 0 := by
  ext u
  rw [mem_quotient, mem_letters, List.forall_mem_cons]
  exact iff_of_false (fun hu => h hu.1) (notMem_zero u)

/-- Letters of the kind are read away. -/
theorem quotient_skip (h : p a) (hL : L.leftQuotient [a] = 0) : (letters p * L).leftQuotient [a] = letters p * L := by
  rw [quotient_mul_keep hL, quotient_letters h]

/-- Another letter is the first of what follows. -/
theorem quotient_next (h : ¬p a) : (letters p * L).leftQuotient [a] = L.leftQuotient [a] :=
  quotient_mul_skip nil_mem_letters (quotient_letters_not h)

/-- Words of letters of one kind, with one at least. -/
def letters₁ (p : α → Prop) : Language α := {u | u ≠ [] ∧ ∀ a ∈ u, p a}

theorem mem_letters₁ : u ∈ letters₁ p ↔ u ≠ [] ∧ ∀ a ∈ u, p a := Iff.rfl

theorem nil_notMem_letters₁ : [] ∉ letters₁ p := fun h => (mem_letters₁.1 h).1 rfl

theorem quotient_letters₁ (h : p a) : (letters₁ p).leftQuotient [a] = letters p := by
  ext u
  rw [mem_quotient, mem_letters₁, mem_letters, List.forall_mem_cons]
  exact ⟨fun hu => hu.2.2, fun hu => ⟨List.cons_ne_nil a u, h, hu⟩⟩

theorem quotient_letters₁_not (h : ¬p a) : (letters₁ p).leftQuotient [a] = 0 := by
  ext u
  rw [mem_quotient, mem_letters₁, List.forall_mem_cons]
  exact iff_of_false (fun hu => h hu.2.1) (notMem_zero u)

end Letters

/-! ## Machines -/

variable {σ ε : Type}

/-- The state after a word; `none` once a letter is refused, an error where the machine fails. -/
def run (step : σ → α → Except ε (Option σ)) : σ → List α → Except ε (Option σ)
  | s, [] => .ok (some s)
  | s, a :: u => match step s a with
    | .ok (some s') => run step s' u
    | r => r

/-- Each step goes from a state that stands for a language to one that stands for its quotient, and refuses only letters
that no word of the language goes on with. -/
structure Follows (step : σ → α → Except ε (Option σ)) (I : σ → Language α → Prop) : Prop where
  taken : ∀ {s s' L a}, I s L → step s a = .ok (some s') → I s' (L.leftQuotient [a])
  refused : ∀ {s L a}, I s L → step s a = .ok none → L.leftQuotient [a] = 0

namespace Follows
variable {step : σ → α → Except ε (Option σ)} {I : σ → Language α → Prop}

/-- **After a word the machine stands for what is left of the language.** -/
theorem run_taken (h : Follows step I) :
    ∀ {s s' : σ} {L : Language α} {u : List α}, I s L → run step s u = .ok (some s') →
    I s' (L.leftQuotient u)
  | s, s', L, [], hI, hr => by
    cases hr
    exact hI
  | s, s', L, a :: u, hI, hr => by
    rw [quotient_cons]
    rw [run] at hr
    split at hr
    · rename_i t ht
      exact h.run_taken (h.taken hI ht) hr
    · rename_i hnot
      exact absurd hr (hnot s')

/-- **A word that is refused has no continuation in the language.** -/
theorem run_refused (h : Follows step I) : ∀ {s : σ} {L : Language α} {u : List α}, I s L → run step s u = .ok none →
    L.leftQuotient u = 0
  | s, L, [], hI, hr => by cases hr
  | s, L, a :: u, hI, hr => by
    rw [quotient_cons]
    rw [run] at hr
    split at hr
    · rename_i t ht
      exact h.run_refused (h.taken hI ht) hr
    · rw [h.refused hI hr]
      rfl

end Follows
end Derivative
