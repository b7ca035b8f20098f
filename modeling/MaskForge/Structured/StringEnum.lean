import MaskForge.Lib.Bisect
import MaskForge.Structured.Scalar
/-!
# StringEnum — a sorted list of decoded members, narrowed byte by byte

The members that agree with what was decoded so far are a run `[lo, hi)` of the sorted list.  Reading another byte
narrows the run by two binary searches; the run is never empty, and then one of its members is complete or goes on.
-/
namespace MaskForge

open Bisect (bisect bisect_spec Turns)

namespace StringEnumPlan

variable (plan : StringEnumPlan)

def memberCount : Nat := plan.members.length

def byteAt (index offset : Nat) : Option Byte := plan.members[index]?.bind (·[offset]?)

/-- The test of `lower_bound_byte`: a member that ended comes before every byte. -/
def advances (position : Nat) (target : Byte) (includeEqual : Bool) (index : Nat) : Bool :=
  match plan.byteAt index position with
  | none => true
  | some value => decide (value < target) || (includeEqual && value == target)

def lowerBoundByte (lo hi position : Nat) (target : Byte) (includeEqual : Bool) : Nat :=
  bisect (plan.advances position target includeEqual) lo hi

def narrow (lo hi position : Nat) (byte : Byte) : Option (Nat × Nat) :=
  if hi ≤ lo ∨ plan.memberCount < hi then none
  else if hi - lo = 1 then (if plan.byteAt lo position = some byte then some (lo, hi) else none)
  else
    let lower := plan.lowerBoundByte lo hi position byte false
    let upper := plan.lowerBoundByte lower hi position byte true
    if lower < upper then some (lower, upper) else none

def containsExact (lo hi len : Nat) : Bool :=
  decide (lo < hi ∧ hi ≤ plan.memberCount) && plan.members[lo]?.any (fun value => value.length == len)

def canContinue (lo hi position : Nat) : Bool :=
  decide (lo < hi ∧ hi ≤ plan.memberCount) && plan.members[hi - 1]?.any (fun value => decide (position < value.length))

/-- What `string_enum_layout` checks. -/
def Sorted : Prop := plan.members.Pairwise (· < ·)

/-- The run of members that start with what was decoded. -/
structure Run (decoded : List Byte) (lo hi : Nat) : Prop where
  lt : lo < hi
  le : hi ≤ plan.memberCount
  starts : ∀ i, lo ≤ i → i < hi → ∀ m, plan.members[i]? = some m → decoded <+: m

variable {plan}

theorem lt_of_append_lt (p : List Byte) {a b : List Byte} (h : p ++ a < p ++ b) : a < b := by
  induction p with
  | nil => exact h
  | cons x p ih =>
    rcases List.cons_lt_cons_iff.1 h with h | ⟨-, h⟩
    · exact absurd h (by simp)
    · exact ih h

theorem Sorted.lt (h : plan.Sorted) {i j : Nat} {a b : List Byte} (hij : i < j) (ha : plan.members[i]? = some a)
    (hb : plan.members[j]? = some b) : a < b := by
  obtain ⟨hi, rfl⟩ := List.getElem?_eq_some_iff.1 ha
  obtain ⟨hj, rfl⟩ := List.getElem?_eq_some_iff.1 hb
  exact List.pairwise_iff_getElem.1 h i j hi hj hij

theorem Run.member {decoded : List Byte} {lo hi : Nat} (h : plan.Run decoded lo hi) {i : Nat} (h1 : lo ≤ i)
    (h2 : i < hi) :
    ∃ rest, plan.members[i]? = some (decoded ++ rest) ∧ plan.byteAt i decoded.length = rest.head? := by
  have hlt : i < plan.members.length := Nat.lt_of_lt_of_le h2 h.le
  obtain ⟨rest, hrest⟩ := h.starts i h1 h2 _ (List.getElem?_eq_getElem hlt)
  refine ⟨rest, by rw [hrest, List.getElem?_eq_getElem hlt], ?_⟩
  unfold byteAt
  rw [List.getElem?_eq_getElem hlt, ← hrest, Option.bind_some, List.getElem?_append_right (Nat.le_refl _),
    Nat.sub_self, List.head?_eq_getElem?]

/-- In a run, members that ended or have a smaller byte come first. -/
theorem Run.turns {decoded : List Byte} {lo hi : Nat} (hs : plan.Sorted) (h : plan.Run decoded lo hi) (target : Byte)
    (includeEqual : Bool) : Turns (plan.advances decoded.length target includeEqual) lo hi := by
  intro i j hi1 hij hj hadv
  obtain ⟨a, ha, hba⟩ := h.member hi1 (Nat.lt_trans hij hj)
  obtain ⟨b, hb, hbb⟩ := h.member (Nat.le_of_lt (Nat.lt_of_le_of_lt hi1 hij)) hj
  have hlt := lt_of_append_lt _ (hs.lt hij ha hb)
  unfold advances at hadv ⊢
  rw [hba]
  rw [hbb] at hadv
  cases a with
  | nil => rfl
  | cons x a =>
    cases b with
    | nil => exact absurd hlt (by simp)
    | cons y b =>
      have hxy : x ≤ y := by
        rcases List.cons_lt_cons_iff.1 hlt with h | ⟨h, -⟩
        · exact UInt8.le_of_lt h
        · exact UInt8.le_of_eq h
      simp only [List.head?_cons, Bool.or_eq_true, decide_eq_true_eq, Bool.and_eq_true, beq_iff_eq] at hadv ⊢
      rcases hadv with hlt | ⟨he, rfl⟩
      · exact .inl (UInt8.lt_of_le_of_lt hxy hlt)
      · rcases UInt8.lt_or_eq_of_le hxy with hlt | heq
        · exact .inl hlt
        · exact .inr ⟨he, heq⟩

/-- A narrowed run is one of the members whose next byte is the byte read. -/
theorem Run.narrow {decoded : List Byte} {lo hi lo' hi' : Nat} {byte : Byte} (hs : plan.Sorted)
    (h : plan.Run decoded lo hi) (hn : plan.narrow lo hi decoded.length byte = some (lo', hi')) :
    plan.Run (decoded ++ [byte]) lo' hi' := by
  suffices hsub : lo ≤ lo' ∧ hi' ≤ hi ∧ lo' < hi' ∧
      ∀ i, lo' ≤ i → i < hi' → plan.byteAt i decoded.length = some byte by
    obtain ⟨hlo, hhi, hlt, hbyte⟩ := hsub
    refine ⟨hlt, Nat.le_trans hhi h.le, fun i h1 h2 m hm => ?_⟩
    obtain ⟨rest, hmem, hat⟩ := h.member (Nat.le_trans hlo h1) (Nat.lt_of_lt_of_le h2 hhi)
    rw [hbyte i h1 h2] at hat
    obtain ⟨tail, rfl⟩ := List.head?_eq_some_iff.1 hat.symm
    rw [hmem] at hm
    cases hm
    exact ⟨tail, by simp⟩
  unfold StringEnumPlan.narrow at hn
  split at hn
  · cases hn
  split at hn
  · split at hn
    · rename_i hone hat
      cases hn
      refine ⟨Nat.le_refl _, Nat.le_refl _, h.lt, fun i h1 h2 => ?_⟩
      rw [show i = lo by omega]
      exact hat
    · cases hn
  · dsimp only at hn
    split at hn
    · rename_i hlt
      cases hn
      unfold lowerBoundByte at hlt ⊢
      obtain ⟨h1, h2, -, h4⟩ := bisect_spec _ lo hi (Nat.le_of_lt h.lt) (h.turns hs byte false)
      have hturns : Turns (plan.advances decoded.length byte true)
          (bisect (plan.advances decoded.length byte false) lo hi) hi :=
        fun i j hi hij hj => h.turns hs byte true i j (Nat.le_trans h1 hi) hij hj
      obtain ⟨-, h6, h7, -⟩ := bisect_spec _ _ hi h2 hturns
      refine ⟨h1, h6, hlt, fun i hlo hhi => ?_⟩
      have hnot := h4 i hlo (Nat.lt_of_lt_of_le hhi h6)
      have hyes := h7 i hlo hhi
      unfold advances at hnot hyes
      cases hat : plan.byteAt i decoded.length with
      | none =>
        rw [hat] at hnot
        cases hnot
      | some v =>
        rw [hat] at hnot hyes
        simp only [Bool.false_and, Bool.or_false, decide_eq_false_iff_not, Bool.true_and, Bool.or_eq_true,
          decide_eq_true_eq, beq_iff_eq] at hnot hyes
        rcases hyes with hv | hv
        · exact absurd hv hnot
        · rw [hv]
    · cases hn

/-- **A run never gets stuck**: a member of it is complete, or goes on. -/
theorem Run.goes_on {decoded : List Byte} {lo hi : Nat} (hs : plan.Sorted) (h : plan.Run decoded lo hi) :
    plan.containsExact lo hi decoded.length = true ∨ plan.canContinue lo hi decoded.length = true := by
  have hbounds := h.lt
  obtain ⟨b, hb, -⟩ := h.member (i := hi - 1) (by omega) (by omega)
  cases b with
  | cons y b =>
    refine .inr ?_
    unfold canContinue
    rw [hb]
    simp [h.lt, h.le]
  | nil =>
    obtain ⟨a, ha, -⟩ := h.member (Nat.le_refl lo) h.lt
    have hnil : a = [] := by
      rcases Nat.eq_or_lt_of_le (show lo ≤ hi - 1 by omega) with heq | hlt
      · rw [heq, hb] at ha
        exact (List.append_cancel_left (Option.some.inj ha)).symm
      · exact absurd (lt_of_append_lt _ (hs.lt hlt ha hb)) (by simp)
    refine .inl ?_
    unfold containsExact
    rw [ha, hnil]
    simp [h.lt, h.le]

end StringEnumPlan
end MaskForge
