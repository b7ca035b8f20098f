import Mathlib
/-!
# Decimal — numbers by their digits

The value of a digit string, the string of some width of a number, and the strings without a leading zero.  Digit
strings of one width are in bijection with the numbers below a power of ten, and of two numerals without leading zero
the longer is the greater.
-/
namespace MaskForge.Decimal

/-- An ASCII digit. -/
def IsDigit (b : UInt8) : Prop := 0x30 ≤ b.toNat ∧ b.toNat ≤ 0x39

instance (b : UInt8) : Decidable (IsDigit b) := inferInstanceAs (Decidable (_ ∧ _))

def digitValue (b : UInt8) : Nat := b.toNat - 0x30

/-- The digit of a value below ten. -/
def digitByte (d : Nat) : UInt8 := UInt8.ofNat (0x30 + d)

def AllDigits (w : List UInt8) : Prop := ∀ b ∈ w, IsDigit b

/-- The number a digit string stands for. -/
def value (w : List UInt8) : Nat := w.foldl (fun n b => 10 * n + digitValue b) 0

theorem digitValue_lt {b : UInt8} (h : IsDigit b) : digitValue b < 10 := by
  unfold IsDigit at h
  unfold digitValue
  omega

theorem toNat_digitByte {d : Nat} (h : d < 10) : (digitByte d).toNat = 0x30 + d := by
  rw [digitByte, UInt8.toNat_ofNat', Nat.mod_eq_of_lt (by omega)]

theorem isDigit_digitByte {d : Nat} (h : d < 10) : IsDigit (digitByte d) := by
  rw [IsDigit, toNat_digitByte h]
  omega

theorem digitValue_digitByte {d : Nat} (h : d < 10) : digitValue (digitByte d) = d := by
  rw [digitValue, toNat_digitByte h]
  omega

theorem digitByte_digitValue {b : UInt8} (h : IsDigit b) : digitByte (digitValue b) = b := by
  apply UInt8.toNat_inj.1
  rw [toNat_digitByte (digitValue_lt h), digitValue]
  unfold IsDigit at h
  omega

theorem digitValue_inj {a b : UInt8} (ha : IsDigit a) (hb : IsDigit b) (h : digitValue a = digitValue b) : a = b := by
  rw [← digitByte_digitValue ha, h, digitByte_digitValue hb]

theorem AllDigits.tail {b : UInt8} {w : List UInt8} (h : AllDigits (b :: w)) : AllDigits w :=
  fun x hx => h x (List.mem_cons_of_mem _ hx)

theorem AllDigits.head {b : UInt8} {w : List UInt8} (h : AllDigits (b :: w)) : IsDigit b := h b List.mem_cons_self

theorem allDigits_nil : AllDigits [] := fun _ h => absurd h List.not_mem_nil

theorem allDigits_cons {b : UInt8} {w : List UInt8} : AllDigits (b :: w) ↔ IsDigit b ∧ AllDigits w :=
  ⟨fun h => ⟨h.head, h.tail⟩, fun h x hx => by
    rcases List.mem_cons.1 hx with rfl | hx
    · exact h.1
    · exact h.2 x hx⟩

theorem allDigits_append {v w : List UInt8} : AllDigits (v ++ w) ↔ AllDigits v ∧ AllDigits w := by
  simp only [AllDigits, List.mem_append, or_imp, forall_and]

@[simp] theorem value_nil : value [] = 0 := rfl

theorem value_append (v w : List UInt8) : value (v ++ w) = value v * 10 ^ w.length + value w := by
  have hgen : ∀ (w : List UInt8) (n : Nat), w.foldl (fun n b => 10 * n + digitValue b) n = n * 10 ^ w.length +
    value w := by
    intro w
    induction w with
    | nil => intro n; simp
    | cons b w ih =>
      intro n
      have hb : value (b :: w) = (10 * 0 + digitValue b) * 10 ^ w.length + value w := ih _
      rw [List.foldl_cons, ih, hb, List.length_cons, Nat.pow_succ]
      ring
  rw [value, List.foldl_append]
  exact hgen w _

theorem value_cons (b : UInt8) (w : List UInt8) : value (b :: w) = digitValue b * 10 ^ w.length + value w := by
  have h := value_append [b] w
  rwa [show value [b] = digitValue b by simp [value]] at h

theorem value_snoc (w : List UInt8) (b : UInt8) : value (w ++ [b]) = 10 * value w + digitValue b := by
  rw [value, List.foldl_append]
  rfl

theorem value_lt {w : List UInt8} (h : AllDigits w) : value w < 10 ^ w.length := by
  induction w with
  | nil => exact Nat.one_pos
  | cons b w ih =>
    have hb := digitValue_lt h.head
    have hw := ih h.tail
    rw [value_cons, List.length_cons, Nat.pow_succ]
    nlinarith

/-- **Of one width, a number has one string.** -/
theorem value_inj : ∀ {v w : List UInt8}, v.length = w.length → AllDigits v → AllDigits w → value v = value w → v = w
  | [], [], _, _, _, _ => rfl
  | a :: v, b :: w, hlen, hv, hw, h => by
    have hlen : v.length = w.length := Nat.succ.inj hlen
    have hvlt := value_lt hv.tail
    have hwlt := value_lt hw.tail
    rw [value_cons, value_cons, hlen] at h
    rw [hlen] at hvlt
    have hpos : 0 < 10 ^ w.length := Nat.pow_pos (by decide)
    have hhead : digitValue a = digitValue b := by
      have hdiv := congrArg (· / 10 ^ w.length) h
      simp only [Nat.mul_comm _ (10 ^ w.length), Nat.mul_add_div hpos, Nat.div_eq_of_lt hvlt, Nat.div_eq_of_lt hwlt,
        Nat.add_zero] at hdiv
      exact hdiv
    rw [digitValue_inj hv.head hw.head hhead, value_inj hlen hv.tail hw.tail (by rw [hhead] at h; omega)]

/-- The last digits of a number, as many as asked for. -/
def padded : Nat → Nat → List UInt8
  | 0, _ => []
  | width + 1, n => padded width (n / 10) ++ [digitByte (n % 10)]

@[simp] theorem length_padded : ∀ (width n : Nat), (padded width n).length = width
  | 0, _ => rfl
  | width + 1, n => by rw [padded, List.length_append, length_padded width, List.length_singleton]

theorem allDigits_padded : ∀ (width n : Nat), AllDigits (padded width n)
  | 0, _ => allDigits_nil
  | width + 1, n => allDigits_append.2 ⟨allDigits_padded width _,
      allDigits_cons.2 ⟨isDigit_digitByte (Nat.mod_lt _ (by decide)), allDigits_nil⟩⟩

theorem value_padded : ∀ (width n : Nat), value (padded width n) = n % 10 ^ width
  | 0, n => by simp [padded, Nat.mod_one]
  | width + 1, n => by
    rw [padded, value_snoc, value_padded width, digitValue_digitByte (Nat.mod_lt _ (by decide)), Nat.pow_succ,
      Nat.mul_comm (10 ^ width), Nat.mod_mul]
    omega

/-- Every digit string is that of its width and value. -/
theorem padded_value {w : List UInt8} (h : AllDigits w) : padded w.length (value w) = w := by
  refine value_inj (length_padded _ _) (allDigits_padded _ _) h ?_
  rw [value_padded, Nat.mod_eq_of_lt (value_lt h)]

/-! ### Numerals -/

/-- A digit string that is not empty and does not begin with a zero. -/
def Positive (w : List UInt8) : Prop := AllDigits w ∧ ∃ b u, w = b :: u ∧ b ≠ 0x30

/-- **A numeral without leading zero has as many digits as its value asks for.** -/
theorem Positive.bounds {w : List UInt8} (h : Positive w) :
    10 ^ (w.length - 1) ≤ value w ∧ value w < 10 ^ w.length ∧ 0 < w.length := by
  obtain ⟨hdigits, b, u, rfl, hb⟩ := h
  have hne : 1 ≤ digitValue b := by
    have hdigit := hdigits.head
    have h30 : b.toNat ≠ 0x30 := fun h => hb (UInt8.toNat_inj.1 h)
    unfold IsDigit at hdigit
    unfold digitValue
    omega
  refine ⟨?_, value_lt hdigits, Nat.succ_pos _⟩
  rw [value_cons, List.length_cons, Nat.add_sub_cancel]
  calc 10 ^ u.length = 1 * 10 ^ u.length := (Nat.one_mul _).symm
    _ ≤ digitValue b * 10 ^ u.length := Nat.mul_le_mul_right _ hne
    _ ≤ _ := Nat.le_add_right _ _

theorem Positive.pos {w : List UInt8} (h : Positive w) : 0 < value w :=
  Nat.lt_of_lt_of_le (Nat.pow_pos (by decide)) h.bounds.1

/-- A digit string whose value has all its digits begins with none of them a zero. -/
theorem positive_of_le {w : List UInt8} (h : AllDigits w) (hlen : 0 < w.length) (hle : 10 ^ (w.length - 1) ≤ value w) :
    Positive w := by
  cases w with
  | nil => cases hlen
  | cons b u =>
    refine ⟨h, b, u, rfl, ?_⟩
    rintro rfl
    have hu := value_lt h.tail
    rw [value_cons, List.length_cons, Nat.add_sub_cancel] at hle
    have hzero : digitValue 0x30 = 0 := rfl
    rw [hzero, Nat.zero_mul, Nat.zero_add] at hle
    omega

/-- The longer numeral is the greater. -/
theorem Positive.length_le {v w : List UInt8} (hv : Positive v) (hw : Positive w) (h : value v ≤ value w) :
    v.length ≤ w.length := by
  by_contra hlt
  have hpow : 10 ^ w.length ≤ 10 ^ (v.length - 1) := Nat.pow_le_pow_right (by decide) (by omega)
  have hlow := hv.bounds.1
  have hhigh := hw.bounds.2.1
  omega

/-! ### Digits without zeros at the ends -/

/-- Digits without a leading zero; none stand for zero. -/
def Trimmed (w : List UInt8) : Prop := AllDigits w ∧ w.head? ≠ some 0x30

theorem trimmed_nil : Trimmed [] := ⟨allDigits_nil, by simp⟩

theorem Trimmed.eq_nil_or_positive {w : List UInt8} (h : Trimmed w) : w = [] ∨ Positive w := by
  obtain ⟨hdigits, hhead⟩ := h
  cases w with
  | nil => exact .inl rfl
  | cons b u => exact .inr ⟨hdigits, b, u, rfl, fun hb => hhead (by rw [hb]; rfl)⟩

theorem Positive.trimmed {w : List UInt8} (h : Positive w) : Trimmed w := by
  obtain ⟨hdigits, b, u, rfl, hb⟩ := h
  exact ⟨hdigits, fun h => hb (Option.some.inj h)⟩

theorem Trimmed.value_eq_zero {w : List UInt8} (h : Trimmed w) : value w = 0 ↔ w = [] := by
  constructor
  · intro hzero
    rcases h.eq_nil_or_positive with hnil | hpos
    · exact hnil
    · exact absurd hzero (Nat.ne_of_gt hpos.pos)
  · rintro rfl
    rfl

/-- **Digits without a leading zero are determined by their value.** -/
theorem Trimmed.inj {v w : List UInt8} (hv : Trimmed v) (hw : Trimmed w) (h : value v = value w) : v = w := by
  rcases hv.eq_nil_or_positive with rfl | hvpos
  · exact (hw.value_eq_zero.1 h.symm).symm
  · rcases hw.eq_nil_or_positive with rfl | hwpos
    · exact hv.value_eq_zero.1 h
    · exact value_inj (Nat.le_antisymm (hvpos.length_le hwpos (Nat.le_of_eq h))
        (hwpos.length_le hvpos (Nat.le_of_eq h.symm))) hv.1 hw.1 h

theorem trimmed_dropWhile {w : List UInt8} (h : AllDigits w) : Trimmed (w.dropWhile fun b => decide (b = 0x30)) := by
  induction w with
  | nil => exact trimmed_nil
  | cons b w ih =>
    rw [List.dropWhile_cons]
    split
    · exact ih h.tail
    · rename_i hb
      exact ⟨h, fun heq => hb (decide_eq_true (Option.some.inj heq))⟩

theorem value_dropWhile (w : List UInt8) : value (w.dropWhile fun b => decide (b = 0x30)) = value w := by
  induction w with
  | nil => rfl
  | cons b w ih =>
    rw [List.dropWhile_cons]
    split
    · rename_i hb
      rw [ih, value_cons, of_decide_eq_true hb, show digitValue 0x30 = 0 from rfl, Nat.zero_mul, Nat.zero_add]
    · rfl

/-- Digits without a zero at either end. -/
def Significant (w : List UInt8) : Prop := Positive w ∧ w.getLast? ≠ some 0x30

theorem Significant.not_dvd {w : List UInt8} (h : Significant w) : ¬ 10 ∣ value w := by
  obtain ⟨⟨hdigits, b, u, hw, _⟩, hlast⟩ := h
  have hne : w ≠ [] := by
    rw [hw]
    exact List.cons_ne_nil b u
  have hsplit := List.dropLast_append_getLast hne
  have hdigit := hdigits _ (List.getLast_mem hne)
  have hlt := digitValue_lt hdigit
  have hnonzero : digitValue (w.getLast hne) ≠ 0 := by
    intro hzero
    have h30 : w.getLast hne = 0x30 := digitValue_inj hdigit (by decide) hzero
    exact hlast (by rw [List.getLast?_eq_getLast_of_ne_nil hne, h30])
  rw [← hsplit, value_snoc]
  omega

/-- **A number has one spelling by significant digits and an exponent.** -/
theorem Significant.inj {v w : List UInt8} {e f : ℤ} (hv : Significant v) (hw : Significant w)
    (h : (value v : ℚ) * 10 ^ e = value w * 10 ^ f) : v = w ∧ e = f := by
  have hbelow : ∀ {v w : List UInt8} {e f : ℤ}, Significant v → (value v : ℚ) * 10 ^ e = value w * 10 ^ f → f ≤ e := by
    intro v w e f hv h
    by_contra hlt
    obtain ⟨k, hk⟩ : ∃ k : ℕ, f = e + (k + 1 : ℕ) := ⟨(f - e - 1).toNat, by omega⟩
    rw [hk, zpow_add₀ (by norm_num), zpow_natCast, mul_comm ((10 : ℚ) ^ e), ← mul_assoc] at h
    have hcancel := mul_right_cancel₀ (zpow_ne_zero e (by norm_num : (10 : ℚ) ≠ 0)) h
    have hnat : value v = value w * 10 ^ (k + 1) := by exact_mod_cast hcancel
    exact hv.not_dvd ⟨value w * 10 ^ k, by rw [hnat, pow_succ]; ring⟩
  have hexp : e = f := Int.le_antisymm (hbelow hw h.symm) (hbelow hv h)
  subst hexp
  have hcancel := mul_right_cancel₀ (zpow_ne_zero e (by norm_num : (10 : ℚ) ≠ 0)) h
  exact ⟨hv.1.trimmed.inj hw.1.trimmed (by exact_mod_cast hcancel), rfl⟩

/-- `0`, or digits without a leading zero. -/
def Numeral (d : List UInt8) : Prop := d = [0x30] ∨ Positive d

theorem Numeral.digits {d : List UInt8} (h : Numeral d) : AllDigits d := by
  rcases h with rfl | h
  · exact allDigits_cons.2 ⟨by decide, allDigits_nil⟩
  · exact h.1

theorem Numeral.cons {d : List UInt8} (h : Numeral d) : ∃ b u, d = b :: u := by
  rcases h with rfl | ⟨_, b, u, rfl, _⟩
  · exact ⟨_, _, rfl⟩
  · exact ⟨_, _, rfl⟩

end MaskForge.Decimal
