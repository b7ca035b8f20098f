import Mathlib.Data.Nat.Notation
import Mathlib.Tactic.Common
/-!
# PackedBits — a set of numbers as a row of machine words

Bit `i` is bit `i % w` of word `i / w`; a word the row does not have reads as zero.
-/
namespace PackedBits

variable {w : Nat}

def bit (words : List (BitVec w)) (i : Nat) : Bool := (words[i / w]?.getD 0).getLsbD (i % w)

def insert (words : List (BitVec w)) (i : Nat) : List (BitVec w) := words.modify (i / w) (· ||| 1#w <<< (i % w))

def union (a b : List (BitVec w)) : List (BitVec w) := List.zipWith (· ||| ·) a b

@[simp] theorem length_insert (words : List (BitVec w)) (i : Nat) : (insert words i).length = words.length :=
  List.length_modify _ _ _

@[simp] theorem bit_nil (i : Nat) : bit ([] : List (BitVec w)) i = false := by
  simp [bit]

@[simp] theorem bit_zeros (n i : Nat) : bit (List.replicate n (0#w)) i = false := by
  unfold bit
  rw [List.getElem?_replicate]
  split <;> simp

theorem getLsbD_one_shiftLeft {i j : Nat} (hi : i < w) : (1#w <<< i).getLsbD j = decide (j = i) := by
  rw [← BitVec.twoPow_eq, BitVec.getLsbD_twoPow]
  by_cases hj : j = i
  · simp [hj, hi]
  · simp [hj, Ne.symm hj]

/-- **Inserting a number the row has a word for sets its bit and no other.** -/
theorem bit_insert {words : List (BitVec w)} {i : Nat} (hw : 0 < w) (hi : i / w < words.length) (j : Nat) :
    bit (insert words i) j = (bit words j || decide (j = i)) := by
  unfold bit insert
  rw [List.getElem?_modify]
  by_cases hd : i / w = j / w
  · simp only [if_pos hd]
    rw [← hd, List.getElem?_eq_getElem hi]
    have hsame : j % w = i % w ↔ j = i := by
      constructor
      · intro h
        rw [← Nat.div_add_mod j w, ← Nat.div_add_mod i w, h, hd]
      · rintro rfl
        rfl
    simp [getLsbD_one_shiftLeft (Nat.mod_lt i hw), hsame]
  · have hne : j ≠ i := fun h => hd (by rw [h])
    simp [hd, hne]

theorem bit_union {a b : List (BitVec w)} (h : a.length = b.length) (i : Nat) :
    bit (union a b) i = (bit a i || bit b i) := by
  unfold bit union
  rw [List.getElem?_zipWith]
  by_cases hi : i / w < a.length
  · rw [List.getElem?_eq_getElem hi, List.getElem?_eq_getElem (h ▸ hi)]
    simp
  · rw [List.getElem?_eq_none (by omega), List.getElem?_eq_none (by omega)]
    simp

@[simp] theorem length_union (a b : List (BitVec w)) : (union a b).length = min a.length b.length := by
  simp [union]

end PackedBits
