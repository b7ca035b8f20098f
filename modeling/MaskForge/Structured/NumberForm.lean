import MaskForge.Lib.Decimal
import MaskForge.Primitives
/-!
# NumberForm — the canonical form of a JSON number

A number is kept as a sign, its significant digits and an exponent, the exponent as a sign and digits too, so that none
is too long.  Zeros are stripped from both ends of the mantissa and the exponent is adjusted, digit by digit, for the
decimal point and for the zeros stripped.  Equal forms are equal numbers and equal numbers have equal forms.
-/
namespace MaskForge
namespace NumberForm

open Decimal (AllDigits Positive Numeral Trimmed Significant IsDigit value digitValue digitByte)

inductive NumberError where
  | malformed
  deriving DecidableEq, Repr

/-- Where the parts of a normalized number lie in the scratch bytes. -/
structure NumberScratchValue where
  negative : Bool
  digitLen : Nat
  expNegative : Bool
  expStart : Nat

def trimZeroes (digits : List Byte) : List Byte := digits.dropWhile fun b => decide (b = 0x30)

/-- `usize_digits` fills its array from the end. -/
def usizeDigitsLoop (n : Nat) (out : List Byte) : List Byte :=
  if n / 10 = 0 then digitByte (n % 10) :: out else usizeDigitsLoop (n / 10) (digitByte (n % 10) :: out)
  termination_by n
  decreasing_by omega

def usizeDigits (n : Nat) : List Byte := usizeDigitsLoop n []

/-- The value of the digit in front, nothing counting as zero. -/
def headDigit (digits : List Byte) : Nat := (digits.head?.map digitValue).getD 0

/-- The loop of `append_sum`, over both numbers from their last digits on. -/
def sumLoop (a b : List Byte) (carry : Nat) : List Byte :=
  if a = [] ∧ b = [] ∧ carry = 0 then []
  else
    let sum := headDigit a + headDigit b + carry
    digitByte (sum % 10) :: sumLoop a.tail b.tail (sum / 10)
  termination_by (a.length + b.length, carry)
  decreasing_by
    rename_i h
    cases a with
    | nil =>
      cases b with
      | nil =>
        have hcarry : carry ≠ 0 := fun hc => h ⟨rfl, rfl, hc⟩
        refine Prod.Lex.right _ ?_
        simp only [headDigit, List.head?_nil, Option.map_none, Option.getD_none]
        omega
      | cons y b => exact Prod.Lex.left _ _ (by simp)
    | cons x a => exact Prod.Lex.left _ _ (by simp only [List.tail_cons, List.length_cons, List.length_tail]; omega)

def appendSum (out a b : List Byte) : List Byte := out ++ (sumLoop a.reverse b.reverse 0).reverse

/-- The loop of `append_difference`, over both numbers from their last digits on. -/
def differenceLoop : List Byte → List Byte → Int → List Byte
  | [], _, _ => []
  | x :: a, b, borrow =>
    let digit : Int := digitValue x - headDigit b - borrow
    if digit < 0 then digitByte (digit + 10).toNat :: differenceLoop a b.tail 1
    else digitByte digit.toNat :: differenceLoop a b.tail 0

def appendDifference (out a b : List Byte) : List Byte :=
  out ++ trimZeroes (differenceLoop a.reverse b.reverse 0).reverse

def cmpMagnitudesBytes (a b : List Byte) : Ordering := (compare a.length b.length).then (List.compareLex compare a b)

def appendAdjustedExponent (out : List Byte) (rawNegative : Bool) (raw : List Byte) (deltaNegative : Bool)
    (delta : List Byte) :
    List Byte × Bool :=
  let raw := trimZeroes raw
  let delta := trimZeroes delta
  if raw = [] then (out ++ delta, !delta.isEmpty && deltaNegative)
  else if delta = [] then (out ++ raw, rawNegative)
  else if rawNegative = deltaNegative then (appendSum out raw delta, rawNegative)
  else match cmpMagnitudesBytes raw delta with
    | .eq => (out, false)
    | .gt => (appendDifference out raw delta, rawNegative)
    | .lt => (appendDifference out delta raw, deltaNegative)

/-- A slice cut at its first byte of a kind, which is left out. -/
def splitAtByte (p : Byte → Bool) (bytes : List Byte) : List Byte × Option (List Byte) :=
  match bytes.dropWhile fun b => !p b with
  | [] => (bytes, none)
  | _ :: rest => (bytes.takeWhile fun b => !p b, some rest)

/-- The sign, and what stands behind it. -/
def splitSign : List Byte → Except NumberError (Bool × List Byte)
  | [] => .error .malformed
  | b :: rest => if b = 0x2d then .ok (true, rest) else if IsDigit b then .ok (false, b :: rest) else .error .malformed

/-- The sign, the integer, the fraction and what stands behind the exponent's mark. -/
def numberParts (raw : List Byte) :
    Except NumberError (Bool × List Byte × Option (List Byte) × Option (List Byte)) := do
  let (negative, body) ← splitSign raw
  let (mantissa, exponent) := splitAtByte (fun b => decide (b = 0x65 ∨ b = 0x45)) body
  let (integer, fraction) := splitAtByte (fun b => decide (b = 0x2e)) mantissa
  if integer = [] ∨ ¬ (∀ b ∈ integer, IsDigit b) ∨ fraction.any
    (fun f => f.isEmpty || f.any fun b => decide (¬ IsDigit b)) then
    .error .malformed
  else .ok (negative, integer, fraction, exponent)

/-- One digit of the mantissa: whether only zeros were read, where the last other digit ends, and the digits kept. -/
def pushMantissa (s : Bool × Nat × List Byte) (b : Byte) : Bool × Nat × List Byte :=
  if s.1 = true ∧ b = 0x30 then s
  else (false, if b ≠ 0x30 then (s.2.2 ++ [b]).length else s.2.1, s.2.2 ++ [b])

def exponentParts : Option (List Byte) → Bool × List Byte
  | none => (false, [])
  | some [] => (false, [])
  | some (b :: rest) => if b = 0x2d then (true, rest) else if b = 0x2b then (false, rest) else (false, b :: rest)

/-- The exponent is read only where the mantissa is not zero. -/
def normalizeNumberInto (raw scratch : List Byte) : Except NumberError (NumberScratchValue × List Byte) := do
  let (negative, integer, fraction, exponent) ← numberParts raw
  let (_, lastNonzero, scratch) := (integer ++ fraction.getD []).foldl pushMantissa (true, 0, scratch)
  if lastNonzero = 0 then .ok (⟨false, 0, false, 0⟩, [])
  else
    let trailing := scratch.length - lastNonzero
    let (rawNegative, rawDigits) := exponentParts exponent
    if (exponent.isSome = true ∧ rawDigits = []) ∨ ¬ ∀ b ∈ rawDigits, IsDigit b then .error .malformed
    else
      let fractionLen := (fraction.getD []).length
      let count := usizeDigits (max trailing fractionLen - min trailing fractionLen)
      let expStart := (scratch.take lastNonzero).length
      let (scratch, expNegative) := appendAdjustedExponent (scratch.take lastNonzero) rawNegative (trimZeroes rawDigits)
        (decide (trailing < fractionLen)) count
      .ok (⟨negative, lastNonzero, expNegative, expStart⟩, scratch)

/-- The bytes of a number record. -/
structure Form where
  negative : Bool
  digits : List Byte
  expNegative : Bool
  expDigits : List Byte
  deriving DecidableEq, Repr

/-- The record `finish_number` copies out of the cleared scratch. -/
def finishNumber (raw : List Byte) : Except NumberError Form := do
  let (value, scratch) ← normalizeNumberInto raw []
  .ok ⟨value.negative, scratch.take value.digitLen, value.expNegative, scratch.drop value.expStart⟩

/-! ### Digits of counts and sums -/

theorem usizeDigitsLoop_spec (n : Nat) (out : List Byte) (hout : AllDigits out) : AllDigits (usizeDigitsLoop n out) ∧
    value (usizeDigitsLoop n out) = n * 10 ^ out.length + value out := by
  induction n, out using usizeDigitsLoop.induct with
  | case1 n out h =>
    have hdigits : AllDigits (digitByte (n % 10) :: out) :=
      Decimal.allDigits_cons.2 ⟨Decimal.isDigit_digitByte (Nat.mod_lt _ (by decide)), hout⟩
    rw [usizeDigitsLoop, if_pos h]
    refine ⟨hdigits, ?_⟩
    rw [Decimal.value_cons, Decimal.digitValue_digitByte (Nat.mod_lt _ (by decide)), Nat.mod_eq_of_lt (by omega)]
  | case2 n out h ih =>
    have hdigits : AllDigits (digitByte (n % 10) :: out) :=
      Decimal.allDigits_cons.2 ⟨Decimal.isDigit_digitByte (Nat.mod_lt _ (by decide)), hout⟩
    rw [usizeDigitsLoop, if_neg h]
    refine ⟨(ih hdigits).1, ?_⟩
    rw [(ih hdigits).2, Decimal.value_cons, Decimal.digitValue_digitByte (Nat.mod_lt _ (by decide)),
      List.length_cons, pow_succ]
    calc n / 10 * (10 ^ out.length * 10) + (n % 10 * 10 ^ out.length + value out)
        = (10 * (n / 10) + n % 10) * 10 ^ out.length + value out := by ring
      _ = n * 10 ^ out.length + value out := by rw [Nat.div_add_mod]

theorem usizeDigits_spec (n : Nat) : AllDigits (usizeDigits n) ∧ value (usizeDigits n) = n := by
  obtain ⟨hdigits, hvalue⟩ := usizeDigitsLoop_spec n [] Decimal.allDigits_nil
  exact ⟨hdigits, by rw [usizeDigits, hvalue]; simp [value]⟩

/-- The value of digits from the last one on. -/
theorem value_reverse (digits : List Byte) :
    value digits.reverse = headDigit digits + 10 * value digits.tail.reverse := by
  cases digits with
  | nil => rfl
  | cons b digits =>
    rw [List.reverse_cons, Decimal.value_snoc, Nat.add_comm]
    rfl

theorem allDigits_reverse {digits : List Byte} : AllDigits digits.reverse ↔ AllDigits digits := by
  simp [AllDigits]

theorem sumLoop_spec (a b : List Byte) (carry : Nat) : AllDigits (sumLoop a b carry) ∧
    value (sumLoop a b carry).reverse = value a.reverse + value b.reverse + carry := by
  induction a, b, carry using sumLoop.induct with
  | case1 a b carry h =>
    rw [sumLoop, if_pos h]
    obtain ⟨rfl, rfl, rfl⟩ := h
    exact ⟨Decimal.allDigits_nil, rfl⟩
  | case2 a b carry h sum ih =>
    rw [sumLoop, if_neg h]
    dsimp only
    have hmod : sum % 10 < 10 := Nat.mod_lt _ (by decide)
    refine ⟨Decimal.allDigits_cons.2 ⟨Decimal.isDigit_digitByte hmod, ih.1⟩, ?_⟩
    rw [List.reverse_cons, Decimal.value_snoc, Decimal.digitValue_digitByte hmod]
    rw [ih.2, value_reverse a, value_reverse b]
    have hsum : sum = headDigit a + headDigit b + carry := rfl
    omega

/-- No leading zero is written where the numbers have none. -/
theorem sumLoop_trimmed (a b : List Byte) (carry : Nat) (ha : a.getLast? ≠ some 0x30) (hb : b.getLast? ≠ some 0x30)
    (hda : AllDigits a) (hdb : AllDigits b) : (sumLoop a b carry).getLast? ≠ some 0x30 := by
  have hlast : ∀ {x : Byte} {l : List Byte}, (x :: l).getLast? ≠ some 0x30 → l.getLast? ≠ some 0x30 ∧
    (l = [] → x ≠ 0x30) := by
    intro x l h
    cases l with
    | nil => exact ⟨by simp, fun _ hx => h (by rw [hx]; rfl)⟩
    | cons y l => exact ⟨by rwa [List.getLast?_cons_cons] at h, fun h => by cases h⟩
  have hhead : ∀ {l : List Byte}, l.getLast? ≠ some 0x30 → AllDigits l → l ≠ [] → l.tail = [] → 0 < headDigit l := by
    intro l hl hd hne htail
    cases l with
    | nil => exact absurd rfl hne
    | cons x l =>
      refine Nat.pos_of_ne_zero fun hzero => (hlast hl).2 htail ?_
      exact Decimal.digitValue_inj hd.head (by decide) hzero
  have htail : ∀ {l : List Byte}, l.getLast? ≠ some 0x30 → l.tail.getLast? ≠ some 0x30 := by
    intro l hl
    cases l with
    | nil => exact hl
    | cons x l => exact (hlast hl).1
  have hdtail : ∀ {l : List Byte}, AllDigits l → AllDigits l.tail := fun hl x hx => hl x (List.mem_of_mem_tail hx)
  induction a, b, carry using sumLoop.induct with
  | case1 a b carry h =>
    rw [sumLoop, if_pos h]
    simp
  | case2 a b carry h sum ih =>
    rw [sumLoop, if_neg h]
    dsimp only
    have hih := ih (htail ha) (htail hb) (hdtail hda) (hdtail hdb)
    generalize hrest : sumLoop a.tail b.tail (sum / 10) = rest at hih
    cases rest with
    | cons y rest => rwa [List.getLast?_cons_cons]
    | nil =>
      -- the digit written last is the whole sum, and some part of it is not zero
      rw [sumLoop] at hrest
      split at hrest
      · rename_i hend
        obtain ⟨hta, htb, hcarry⟩ := hend
        have hpos : 0 < sum := by
          by_cases hae : a = []
          · by_cases hbe : b = []
            · have : carry ≠ 0 := fun hc => h ⟨hae, hbe, hc⟩
              omega
            · have := hhead hb hdb hbe htb
              omega
          · have := hhead ha hda hae hta
            omega
        rw [List.getLast?_singleton]
        intro heq
        have hdigit := Decimal.digitValue_digitByte (Nat.mod_lt sum (by decide : 0 < 10))
        rw [Option.some.inj heq] at hdigit
        have hzero : digitValue 0x30 = 0 := rfl
        omega
      · cases hrest

theorem getLast?_reverse_of_trimmed {digits : List Byte} (h : Trimmed digits) :
    digits.reverse.getLast? ≠ some 0x30 := by
  rw [List.getLast?_reverse]
  exact h.2

/-- **Grade-school addition adds.** -/
theorem appendSum_spec (out : List Byte) {a b : List Byte} (ha : Trimmed a) (hb : Trimmed b) :
    ∃ digits, appendSum out a b = out ++ digits ∧ Trimmed digits ∧ value digits = value a + value b := by
  obtain ⟨hdigits, hvalue⟩ := sumLoop_spec a.reverse b.reverse 0
  refine ⟨_, rfl, ⟨allDigits_reverse.2 hdigits, ?_⟩, ?_⟩
  · rw [List.head?_reverse]
    exact sumLoop_trimmed _ _ 0 (getLast?_reverse_of_trimmed ha) (getLast?_reverse_of_trimmed hb)
      (allDigits_reverse.2 ha.1) (allDigits_reverse.2 hb.1)
  · rw [hvalue, List.reverse_reverse, List.reverse_reverse, Nat.add_zero]

theorem headDigit_lt {digits : List Byte} (h : AllDigits digits) : headDigit digits < 10 := by
  cases digits with
  | nil => decide
  | cons b digits => exact Decimal.digitValue_lt h.head

/-- The borrow is paid back by the next digit. -/
theorem differenceLoop_spec : ∀ {a b : List Byte} {borrow : Nat}, AllDigits a → AllDigits b → borrow ≤ 1 →
    value b.reverse + borrow ≤ value a.reverse → AllDigits (differenceLoop a b borrow) ∧
      value (differenceLoop a b borrow).reverse + value b.reverse + borrow = value a.reverse
  | [], b, borrow, _, _, _, hle => by
    have hnil : value ([] : List Byte).reverse = 0 := rfl
    refine ⟨Decimal.allDigits_nil, ?_⟩
    rw [differenceLoop]
    omega
  | x :: a, b, borrow, ha, hb, hborrow, hle => by
    have hxlt := Decimal.digitValue_lt ha.head
    have hblt := headDigit_lt hb
    have hbtail : AllDigits b.tail := fun y hy => hb y (List.mem_of_mem_tail hy)
    have hx : headDigit (x :: a) = digitValue x := rfl
    rw [value_reverse b, value_reverse (x :: a), hx, List.tail_cons] at hle ⊢
    rw [differenceLoop]
    split
    · rename_i hneg
      have ih := @differenceLoop_spec _ _ 1 ha.tail hbtail (Nat.le_refl 1) (by omega)
      obtain ⟨d, hd⟩ : ∃ d : Nat, (digitValue x - headDigit b - borrow : Int) + 10 = d :=
        ⟨_, (Int.toNat_of_nonneg (by omega)).symm⟩
      rw [hd, Int.toNat_natCast]
      have hdlt : d < 10 := by omega
      refine ⟨Decimal.allDigits_cons.2 ⟨Decimal.isDigit_digitByte hdlt, ih.1⟩, ?_⟩
      have hvalue := ih.2
      rw [List.reverse_cons, Decimal.value_snoc, Decimal.digitValue_digitByte hdlt]
      push_cast at hvalue ⊢
      omega
    · rename_i hnonneg
      have ih := @differenceLoop_spec _ _ 0 ha.tail hbtail (Nat.zero_le 1) (by omega)
      obtain ⟨d, hd⟩ : ∃ d : Nat, (digitValue x - headDigit b - borrow : Int) = d :=
        ⟨_, (Int.toNat_of_nonneg (by omega)).symm⟩
      rw [hd, Int.toNat_natCast]
      have hdlt : d < 10 := by omega
      refine ⟨Decimal.allDigits_cons.2 ⟨Decimal.isDigit_digitByte hdlt, ih.1⟩, ?_⟩
      have hvalue := ih.2
      rw [List.reverse_cons, Decimal.value_snoc, Decimal.digitValue_digitByte hdlt]
      push_cast at hvalue ⊢
      omega

/-- **Grade-school subtraction subtracts** what is not more. -/
theorem appendDifference_spec (out : List Byte) {a b : List Byte} (ha : Trimmed a) (hb : Trimmed b)
    (hle : value b ≤ value a) :
    ∃ digits, appendDifference out a b = out ++ digits ∧ Trimmed digits ∧ value digits + value b = value a := by
  obtain ⟨hdigits, hvalue⟩ :=
    @differenceLoop_spec _ _ 0 (allDigits_reverse.2 ha.1) (allDigits_reverse.2 hb.1) (Nat.zero_le 1)
    (by rwa [List.reverse_reverse, List.reverse_reverse, Nat.add_zero])
  refine ⟨_, rfl, Decimal.trimmed_dropWhile (allDigits_reverse.2 hdigits), ?_⟩
  rw [trimZeroes, Decimal.value_dropWhile]
  rwa [List.reverse_reverse, List.reverse_reverse, Nat.add_zero] at hvalue

/-! ### The exponent -/

theorem compareLex_value : ∀ {a b : List Byte}, a.length = b.length → AllDigits a → AllDigits b →
    List.compareLex compare a b = compare (value a) (value b)
  | [], [], _, _, _ => by simp [List.compareLex_nil_nil]
  | [], _ :: _, h, _, _ => by cases h
  | _ :: _, [], h, _, _ => by cases h
  | x :: a, y :: b, h, ha, hb => by
    have hlen : a.length = b.length := Nat.succ.inj h
    have halt := Decimal.value_lt ha.tail
    have hblt := Decimal.value_lt hb.tail
    rw [List.compareLex_cons_cons, compareLex_value hlen ha.tail hb.tail, Decimal.value_cons, Decimal.value_cons, hlen]
    rw [hlen] at halt
    have hbytes : compare x y = compare (digitValue x) (digitValue y) := by
      have hxd := ha.head
      have hyd := hb.head
      have hcmp : compare x y = compare x.toNat y.toNat := by
        simp only [compare, compareOfLessAndEq, UInt8.lt_iff_toNat_lt, UInt8.toNat_inj]
      rw [hcmp]
      unfold IsDigit at hxd hyd
      unfold digitValue
      rcases Nat.lt_trichotomy x.toNat y.toNat with hlt | heq | hgt
      · rw [Nat.compare_eq_lt.2 hlt, Nat.compare_eq_lt.2 (by omega)]
      · rw [Nat.compare_eq_eq.2 heq, Nat.compare_eq_eq.2 (by omega)]
      · rw [Nat.compare_eq_gt.2 hgt, Nat.compare_eq_gt.2 (by omega)]
    rw [hbytes]
    rcases Nat.lt_trichotomy (digitValue x) (digitValue y) with hlt | heq | hgt
    · have hless : digitValue x * 10 ^ b.length + value a < digitValue y * 10 ^ b.length + value b :=
        calc digitValue x * 10 ^ b.length + value a
            < (digitValue x + 1) * 10 ^ b.length := by rw [Nat.add_one_mul]; omega
          _ ≤ digitValue y * 10 ^ b.length := Nat.mul_le_mul_right _ hlt
          _ ≤ _ := Nat.le_add_right _ _
      rw [Nat.compare_eq_lt.2 hlt, Nat.compare_eq_lt.2 hless]
      rfl
    · rw [heq, Nat.compare_eq_eq.2 rfl]
      rcases Nat.lt_trichotomy (value a) (value b) with hlt | heq | hgt
      · rw [Nat.compare_eq_lt.2 hlt, Nat.compare_eq_lt.2 (by omega)]
        rfl
      · rw [Nat.compare_eq_eq.2 heq, Nat.compare_eq_eq.2 (by omega)]
        rfl
      · rw [Nat.compare_eq_gt.2 hgt, Nat.compare_eq_gt.2 (by omega)]
        rfl
    · have hmore : digitValue y * 10 ^ b.length + value b < digitValue x * 10 ^ b.length + value a :=
        calc digitValue y * 10 ^ b.length + value b
            < (digitValue y + 1) * 10 ^ b.length := by rw [Nat.add_one_mul]; omega
          _ ≤ digitValue x * 10 ^ b.length := Nat.mul_le_mul_right _ hgt
          _ ≤ _ := Nat.le_add_right _ _
      rw [Nat.compare_eq_gt.2 hgt, Nat.compare_eq_gt.2 hmore]
      rfl

/-- **Magnitudes are compared by their values**: the longer is the greater. -/
theorem cmpMagnitudesBytes_eq {a b : List Byte} (ha : Positive a) (hb : Positive b) :
    cmpMagnitudesBytes a b = compare (value a) (value b) := by
  unfold cmpMagnitudesBytes
  rcases Nat.lt_trichotomy a.length b.length with hlt | heq | hgt
  · rw [Nat.compare_eq_lt.2 hlt, Nat.compare_eq_lt.2]
    · rfl
    · by_contra hle
      exact absurd (hb.length_le ha (Nat.le_of_not_lt hle)) (Nat.not_le_of_lt hlt)
  · rw [Nat.compare_eq_eq.2 heq, compareLex_value heq ha.1 hb.1]
    rfl
  · rw [Nat.compare_eq_gt.2 hgt, Nat.compare_eq_gt.2]
    · rfl
    · by_contra hle
      exact absurd (ha.length_le hb (Nat.le_of_not_lt hle)) (Nat.not_le_of_lt hgt)

/-- The integer of a sign and digits. -/
def signedValue (negative : Bool) (digits : List Byte) : ℤ := if negative then -(value digits : ℤ) else value digits

/-- Zero is not negative, and no digit is spent on it or before others. -/
def CanonicalExponent (negative : Bool) (digits : List Byte) : Prop := Trimmed digits ∧ (digits = [] → negative = false)

/-- An integer has one such spelling. -/
theorem CanonicalExponent.inj {n m : Bool} {v w : List Byte} (hv : CanonicalExponent n v) (hw : CanonicalExponent m w)
    (h : signedValue n v = signedValue m w) : n = m ∧ v = w := by
  have hzero : ∀ {n : Bool} {v : List Byte}, CanonicalExponent n v → value v = 0 → n = false :=
    fun hv h => hv.2 (hv.1.value_eq_zero.1 h)
  unfold signedValue at h
  cases n <;> cases m
  · exact ⟨rfl, hv.1.inj hw.1 (by simpa using h)⟩
  · have hboth : value v = 0 ∧ value w = 0 := by
      simp only [Bool.false_eq_true, if_false, if_true] at h
      omega
    cases hzero hw hboth.2
  · have hboth : value v = 0 ∧ value w = 0 := by
      simp only [Bool.false_eq_true, if_false, if_true] at h
      omega
    cases hzero hv hboth.1
  · exact ⟨rfl, hv.1.inj hw.1 (by simpa using h)⟩

/-- **The exponent is adjusted exactly.** -/
theorem appendAdjustedExponent_spec (out : List Byte) (rawNegative deltaNegative : Bool) {raw delta : List Byte}
    (hraw : AllDigits raw) (hdelta : AllDigits delta) :
    ∃ digits negative, appendAdjustedExponent out rawNegative raw deltaNegative delta = (out ++ digits, negative) ∧
      CanonicalExponent negative digits ∧ signedValue negative digits = signedValue rawNegative raw +
      signedValue deltaNegative delta := by
  have hr : Trimmed (trimZeroes raw) := Decimal.trimmed_dropWhile hraw
  have hd : Trimmed (trimZeroes delta) := Decimal.trimmed_dropWhile hdelta
  have hrv : value raw = value (trimZeroes raw) := (Decimal.value_dropWhile raw).symm
  have hdv : value delta = value (trimZeroes delta) := (Decimal.value_dropWhile delta).symm
  unfold appendAdjustedExponent
  simp only [signedValue, hrv, hdv]
  generalize trimZeroes raw = r at hr ⊢
  generalize trimZeroes delta = d at hd ⊢
  have hpos : ∀ {w : List Byte}, Trimmed w → w ≠ [] → Positive w := fun hw hne => hw.eq_nil_or_positive.resolve_left hne
  by_cases hrnil : r = []
  · rw [if_pos hrnil, hrnil]
    have hnil : value [] = 0 := rfl
    refine ⟨d, _, rfl, ⟨hd, ?_⟩, ?_⟩
    · rintro rfl
      rfl
    · cases d with
      | nil => simp [hnil]
      | cons b d => simp [hnil]
  · rw [if_neg hrnil]
    by_cases hdnil : d = []
    · rw [if_pos hdnil, hdnil]
      have hnil : value [] = 0 := rfl
      exact ⟨r, rawNegative, rfl, ⟨hr, fun h => absurd h hrnil⟩, by simp [hnil]⟩
    · rw [if_neg hdnil]
      have hrpos := hpos hr hrnil
      have hdpos := hpos hd hdnil
      by_cases hsame : rawNegative = deltaNegative
      · rw [if_pos hsame, ← hsame]
        obtain ⟨digits, happend, htrim, hvalue⟩ := appendSum_spec out hr hd
        refine ⟨digits, rawNegative, by rw [happend], ⟨htrim, fun hnil => ?_⟩, ?_⟩
        · have hzero := htrim.value_eq_zero.2 hnil
          have := hrpos.pos
          omega
        · rw [hvalue]
          cases rawNegative <;> simp
          ring
      · have hother : deltaNegative = !rawNegative := by
          cases rawNegative <;> cases deltaNegative <;> simp_all
        rw [if_neg hsame, cmpMagnitudesBytes_eq hrpos hdpos, hother]
        rcases Nat.lt_trichotomy (value r) (value d) with hlt | heq | hgt
        · rw [Nat.compare_eq_lt.2 hlt]
          obtain ⟨digits, happend, htrim, hvalue⟩ := appendDifference_spec out hd hr (Nat.le_of_lt hlt)
          refine ⟨digits, _, by rw [happend], ⟨htrim, fun hnil => ?_⟩, ?_⟩
          · have hzero := htrim.value_eq_zero.2 hnil
            omega
          · rw [← hvalue]
            cases rawNegative <;> simp
        · rw [Nat.compare_eq_eq.2 heq, heq]
          have hnil : value [] = 0 := rfl
          refine ⟨[], false, by rw [List.append_nil], ⟨Decimal.trimmed_nil, fun _ => rfl⟩, ?_⟩
          cases rawNegative <;> simp [hnil]
        · rw [Nat.compare_eq_gt.2 hgt]
          obtain ⟨digits, happend, htrim, hvalue⟩ := appendDifference_spec out hr hd (Nat.le_of_lt hgt)
          refine ⟨digits, _, by rw [happend], ⟨htrim, fun hnil => ?_⟩, ?_⟩
          · have hzero := htrim.value_eq_zero.2 hnil
            omega
          · rw [← hvalue]
            cases rawNegative <;> simp

/-! ### The mantissa -/

/-- What is kept of the digits read so far: significant ones, then zeros. -/
structure Mantissa (read : List Byte) (s : Bool × Nat × List Byte) : Prop where
  kept : s.2.2 = trimZeroes read
  leading : s.1 = true ↔ s.2.2 = []
  zeros : ∃ digits k, s.2.2 = digits ++ List.replicate k 0x30 ∧ digits.length = s.2.1 ∧ digits.getLast? ≠ some 0x30

theorem Mantissa.push {read : List Byte} {s : Bool × Nat × List Byte} (h : Mantissa read s) (b : Byte) :
    Mantissa (read ++ [b]) (pushMantissa s b) := by
  obtain ⟨leading, last, scratch⟩ := s
  obtain ⟨hkept, hleading, digits, k, hzeros, hlen, hlast⟩ := h
  dsimp only at hkept hleading hzeros hlen
  have htrim : trimZeroes (read ++ [b]) = if scratch = [] then trimZeroes [b] else scratch ++ [b] := by
    rw [hkept, trimZeroes, List.dropWhile_append, trimZeroes, trimZeroes]
    simp only [List.isEmpty_iff]
  unfold pushMantissa
  dsimp only
  split
  · rename_i hskip
    obtain ⟨hl, rfl⟩ := hskip
    have hnil := hleading.1 hl
    refine ⟨?_, hleading, digits, k, hzeros, hlen, hlast⟩
    rw [htrim, if_pos hnil, hnil]
    rfl
  · rename_i hkeep
    refine ⟨?_, by simp, ?_⟩
    · rw [htrim]
      by_cases hnil : scratch = []
      · have hb : b ≠ 0x30 := fun hb => hkeep ⟨hleading.2 hnil, hb⟩
        have hsingle : trimZeroes [b] = [b] := by simp [trimZeroes, hb]
        rw [if_pos hnil, hsingle, hnil]
        rfl
      · rw [if_neg hnil]
    · by_cases hb : b = 0x30
      · refine ⟨digits, k + 1, ?_, ?_, hlast⟩
        · dsimp only
          rw [hzeros, hb, List.replicate_succ', List.append_assoc]
        · dsimp only
          rw [if_neg (not_not.2 hb), hlen]
      · refine ⟨scratch ++ [b], 0, by simp, ?_, ?_⟩
        · dsimp only
          rw [if_pos hb]
        · rw [List.getLast?_concat]
          exact fun heq => hb (Option.some.inj heq)

theorem mantissa_foldl (read : List Byte) : Mantissa read (read.foldl pushMantissa (true, 0, [])) := by
  induction read using List.reverseRecOn with
  | nil => exact ⟨rfl, by simp, [], 0, rfl, rfl, by simp⟩
  | append_singleton read b ih =>
    rw [List.foldl_append]
    exact ih.push b

theorem value_zeros (k : Nat) : value (List.replicate k 0x30) = 0 := by
  induction k with
  | zero => rfl
  | succ k ih =>
    rw [List.replicate_succ, Decimal.value_cons, ih, show digitValue 0x30 = 0 from rfl, Nat.zero_mul]

/-- **Nothing is kept of zero, and of any other mantissa significant digits and a number of zeros.** -/
theorem mantissa_spec {read : List Byte} (hread : AllDigits read) {s : Bool × Nat × List Byte}
    (hs : read.foldl pushMantissa (true, 0, []) = s) :
    (s.2.1 = 0 ∧ value read = 0) ∨
      (s.2.1 ≠ 0 ∧ Significant (s.2.2.take s.2.1) ∧ (s.2.2.take s.2.1).length = s.2.1 ∧
        value read = value (s.2.2.take s.2.1) * 10 ^ (s.2.2.length - s.2.1)) := by
  subst hs
  obtain ⟨hkept, _, digits, k, hzeros, hlen, hlast⟩ := mantissa_foldl read
  generalize read.foldl pushMantissa (true, 0, []) = s at hkept hzeros hlen
  have htrim : Trimmed s.2.2 := hkept ▸ Decimal.trimmed_dropWhile hread
  have hvalue : value read = value digits * 10 ^ k := by
    have hscratch : value read = value s.2.2 := by rw [hkept, trimZeroes, Decimal.value_dropWhile]
    rw [hscratch, hzeros, Decimal.value_append, value_zeros, List.length_replicate, Nat.add_zero]
  by_cases hnil : digits = []
  · refine .inl ⟨by rw [← hlen, hnil]; rfl, ?_⟩
    rw [hvalue, hnil]
    simp [value]
  · have htake : s.2.2.take s.2.1 = digits := by rw [hzeros, ← hlen, List.take_left]
    have hk : s.2.2.length - s.2.1 = k := by
      rw [hzeros, List.length_append, List.length_replicate, hlen, Nat.add_sub_cancel_left]
    refine .inr ⟨?_, ?_, ?_, ?_⟩
    · rw [← hlen]
      exact fun h => hnil (List.length_eq_zero_iff.1 h)
    · rw [htake]
      obtain ⟨b, u, hcons⟩ := List.exists_cons_of_ne_nil hnil
      rw [hzeros, hcons] at htrim
      refine ⟨⟨?_, b, u, hcons, fun hb => htrim.2 (by rw [hb]; rfl)⟩, hlast⟩
      rw [hcons]
      exact (Decimal.allDigits_append.1 htrim.1).1
    · rw [htake, hlen]
    · rw [htake, hk, hvalue]

/-! ### The grammar -/

/-- A number cut into its parts. -/
structure NumberText where
  negative : Bool
  integer : List Byte
  fraction : Option (List Byte)
  exponent : Option (Byte × List Byte × List Byte)

namespace NumberText

def text (t : NumberText) : List Byte :=
  (if t.negative then [0x2d] else []) ++ (t.integer ++ (t.fraction.elim [] fun f => 0x2e :: f)) ++
    t.exponent.elim [] fun e => e.1 :: (e.2.1 ++ e.2.2)

/-- The grammar, but with any digits in front of the point. -/
structure Loose (t : NumberText) : Prop where
  integer : t.integer ≠ [] ∧ AllDigits t.integer
  fraction : ∀ f, t.fraction = some f → f ≠ [] ∧ AllDigits f
  exponent : ∀ mark sign digits, t.exponent = some (mark, sign, digits) → (mark = 0x65 ∨ mark = 0x45) ∧
    (sign = [] ∨ sign = [0x2d] ∨ sign = [0x2b]) ∧ digits ≠ [] ∧ AllDigits digits

/-- **The JSON grammar**: no zero stands in front of other digits. -/
structure Json (t : NumberText) : Prop extends Loose t where
  noLeadingZero : Numeral t.integer

def exponentValue (t : NumberText) : ℤ := t.exponent.elim 0 fun e => signedValue (decide (e.2.1 = [0x2d])) e.2.2

/-- **The number a text denotes.** -/
def value (t : NumberText) : ℚ :=
  (if t.negative then -1 else 1) * Decimal.value (t.integer ++ t.fraction.getD []) * 10 ^
    (t.exponentValue - (t.fraction.getD []).length)

end NumberText

theorem splitAtByte_some {p : Byte → Bool} {a : List Byte} {x : Byte} {b : List Byte} (ha : ∀ y ∈ a, p y = false)
    (hx : p x = true) :
    splitAtByte p (a ++ x :: b) = (a, some b) := by
  have hnot : ∀ y ∈ a, (!p y) = true := fun y hy => by rw [ha y hy]; rfl
  have hdrop : (a ++ x :: b).dropWhile (fun y => !p y) = x :: b := by
    rw [List.dropWhile_append_of_pos hnot, List.dropWhile_cons, if_neg (by simp [hx])]
  rw [splitAtByte, hdrop]
  dsimp only
  rw [List.takeWhile_append_of_pos hnot, List.takeWhile_cons, if_neg (by simp [hx]), List.append_nil]

theorem splitAtByte_none {p : Byte → Bool} {a : List Byte} (ha : ∀ y ∈ a, p y = false) :
    splitAtByte p a = (a, none) := by
  have hdrop : a.dropWhile (fun y => !p y) = [] := List.dropWhile_eq_nil_iff.2 fun y hy => by rw [ha y hy]; rfl
  rw [splitAtByte, hdrop]

/-- **A slice is cut at its first byte of a kind**, if it has one. -/
theorem splitAtByte_ok {p : Byte → Bool} {bytes a : List Byte} {rest : Option (List Byte)}
    (h : splitAtByte p bytes = (a, rest)) :
    (rest = none ∧ bytes = a) ∨ ∃ x b, rest = some b ∧ p x = true ∧ bytes = a ++ x :: b := by
  have hsplit := List.takeWhile_append_dropWhile (p := fun y => !p y) (l := bytes)
  unfold splitAtByte at h
  split at h
  · cases h
    exact .inl ⟨rfl, rfl⟩
  · rename_i x b hdrop
    cases h
    refine .inr ⟨x, b, rfl, ?_, ?_⟩
    · have hhead := List.head_dropWhile_not (fun y => !p y) (l := bytes) (by rw [hdrop]; exact List.cons_ne_nil x b)
      simp only [hdrop, List.head_cons] at hhead
      simpa using hhead
    · rw [← hdrop, hsplit]

theorem digit_not_mark {b : Byte} (h : IsDigit b) : decide (b = 0x65 ∨ b = 0x45) = false := by
  rw [decide_eq_false_iff_not]
  rintro (rfl | rfl)
  · exact absurd h (by decide)
  · exact absurd h (by decide)

theorem digit_not_dot {b : Byte} (h : IsDigit b) : decide (b = 0x2e) = false := by
  rw [decide_eq_false_iff_not]
  rintro rfl
  exact absurd h (by decide)

/-- **A text of the grammar is cut into its parts.** -/
theorem numberParts_text {t : NumberText} (h : t.Loose) :
    numberParts t.text = .ok (t.negative, t.integer, t.fraction, t.exponent.map fun e => e.2.1 ++ e.2.2) := by
  obtain ⟨negative, integer, fraction, exponent⟩ := t
  obtain ⟨⟨hne, hinteger⟩, hfraction, hexponent⟩ := h
  dsimp only at hne hinteger hfraction hexponent
  have hmantissa : splitAtByte (fun b => decide (b = 0x2e)) (integer ++ fraction.elim [] fun f => 0x2e :: f) =
    (integer, fraction) := by
    cases fraction with
    | none => rw [Option.elim_none, List.append_nil, splitAtByte_none fun b hb => digit_not_dot (hinteger b hb)]
    | some f => rw [Option.elim_some, splitAtByte_some (fun b hb => digit_not_dot (hinteger b hb)) (by decide)]
  have hplain : ∀ b ∈ integer ++ fraction.elim [] fun f => 0x2e :: f, decide (b = 0x65 ∨ b = 0x45) = false := by
    intro b hb
    rcases List.mem_append.1 hb with hb | hb
    · exact digit_not_mark (hinteger b hb)
    · cases fraction with
      | none => cases hb
      | some f =>
        rcases List.mem_cons.1 hb with rfl | hb
        · decide
        · exact digit_not_mark ((hfraction f rfl).2 b hb)
  have hbody : splitAtByte (fun b => decide (b = 0x65 ∨ b = 0x45))
      ((integer ++ fraction.elim [] fun f => 0x2e :: f) ++ exponent.elim [] fun e => e.1 :: (e.2.1 ++ e.2.2)) =
      (integer ++ fraction.elim [] fun f => 0x2e :: f, exponent.map fun e => e.2.1 ++ e.2.2) := by
    cases exponent with
    | none => rw [Option.elim_none, List.append_nil, splitAtByte_none hplain, Option.map_none]
    | some e =>
      obtain ⟨mark, sign, digits⟩ := e
      rw [Option.elim_some, splitAtByte_some hplain (decide_eq_true (hexponent _ _ _ rfl).1), Option.map_some]
  have hok : ¬ (integer = [] ∨ (¬ ∀ b ∈ integer, IsDigit b) ∨
      (fraction.any (fun f => f.isEmpty || f.any fun b => decide (¬ IsDigit b))) = true) := by
    rintro (hnil | hbad | hbad)
    · exact hne hnil
    · exact hbad hinteger
    · cases fraction with
      | none => cases hbad
      | some f =>
        rw [Option.any_some, Bool.or_eq_true, List.isEmpty_iff, List.any_eq_true] at hbad
        rcases hbad with hnil | ⟨b, hb, hnot⟩
        · exact (hfraction f rfl).1 hnil
        · exact of_decide_eq_true hnot ((hfraction f rfl).2 b hb)
  unfold numberParts NumberText.text
  dsimp only
  cases negative with
  | true =>
    rw [if_pos rfl, List.append_assoc, List.singleton_append]
    simp only [splitSign, ↓reduceIte, bind, Except.bind, hbody, hmantissa, if_neg hok]
  | false =>
    rw [if_neg Bool.false_ne_true, List.nil_append]
    obtain ⟨b, u, hcons⟩ := List.exists_cons_of_ne_nil hne
    have hb : IsDigit b := hinteger b (by rw [hcons]; exact List.mem_cons_self)
    have hsign : b ≠ 0x2d := by
      rintro rfl
      exact absurd hb (by decide)
    generalize hbytes : (integer ++ fraction.elim [] fun f => 0x2e :: f) ++ exponent.elim []
      (fun e => e.1 :: (e.2.1 ++ e.2.2)) = bytes at hbody
    have hfirst : ∃ rest, bytes = b :: rest := by
      rw [← hbytes, hcons]
      exact ⟨_, rfl⟩
    obtain ⟨rest, rfl⟩ := hfirst
    simp only [splitSign, if_neg hsign, if_pos hb, bind, Except.bind, hbody, hmantissa, if_neg hok]

/-- The parts found are those of a text, whose exponent is still to be read. -/
theorem numberParts_ok {raw integer : List Byte} {negative : Bool} {fraction exponent : Option (List Byte)}
    (h : numberParts raw = .ok (negative, integer, fraction, exponent)) :
    (integer ≠ [] ∧ AllDigits integer) ∧ (∀ f, fraction = some f → f ≠ [] ∧ AllDigits f) ∧
      ∃ tail, raw = (if negative then [0x2d] else []) ++ (integer ++ fraction.elim [] fun f => 0x2e :: f) ++ tail ∧
        ((exponent = none ∧ tail = []) ∨ ∃ mark rest, exponent = some rest ∧ (mark = 0x65 ∨ mark = 0x45) ∧
          tail = mark :: rest) := by
  obtain ⟨⟨sign, body⟩, hsign, h⟩ := bind_ok h
  have hraw : raw = (if sign then [0x2d] else []) ++ body := by
    cases raw with
    | nil => cases hsign
    | cons b rest =>
      rw [splitSign] at hsign
      split at hsign
      · rename_i hb
        cases hsign
        rw [hb]
        rfl
      · split at hsign
        · cases hsign
          rfl
        · cases hsign
  dsimp only at h
  generalize hbody : splitAtByte (fun b => decide (b = 0x65 ∨ b = 0x45)) body = cut at h
  obtain ⟨mantissa, rest⟩ := cut
  dsimp only at h
  generalize hmantissa : splitAtByte (fun b => decide (b = 0x2e)) mantissa = cut at h
  obtain ⟨whole, part⟩ := cut
  dsimp only at h
  split at h
  · cases h
  · rename_i hok
    cases h
    rw [not_or, not_or, not_not] at hok
    obtain ⟨hne, hdigits, hfraction⟩ := hok
    refine ⟨⟨hne, hdigits⟩, fun f hf => ?_, ?_⟩
    · rw [hf, Option.any_some, Bool.or_eq_true, List.isEmpty_iff, List.any_eq_true, not_or] at hfraction
      refine ⟨hfraction.1, fun b hb => ?_⟩
      by_contra hnot
      exact hfraction.2 ⟨b, hb, decide_eq_true hnot⟩
    · have hwhole : mantissa = integer ++ fraction.elim [] fun f => 0x2e :: f := by
        rcases splitAtByte_ok hmantissa with ⟨rfl, hm⟩ | ⟨x, f, rfl, hx, hm⟩
        · rw [hm, Option.elim_none, List.append_nil]
        · rw [hm, of_decide_eq_true hx, Option.elim_some]
      rcases splitAtByte_ok hbody with ⟨rfl, hb⟩ | ⟨mark, rest, rfl, hmark, hb⟩
      · exact ⟨[], by rw [hraw, hb, hwhole, List.append_nil], .inl ⟨rfl, rfl⟩⟩
      · exact ⟨mark :: rest, by
          rw [hraw, hb, hwhole, ← List.append_assoc], .inr ⟨mark, rest, rfl, of_decide_eq_true hmark, rfl⟩⟩

/-- Behind its mark an exponent is a sign, if any, and digits. -/
theorem exponentParts_text {sign digits : List Byte} (hsign : sign = [] ∨ sign = [0x2d] ∨ sign = [0x2b])
    (hdigits : AllDigits digits) :
    exponentParts (some (sign ++ digits)) = (decide (sign = [0x2d]), digits) := by
  rcases hsign with rfl | rfl | rfl
  · cases digits with
    | nil => rfl
    | cons b digits =>
      have hb := hdigits.head
      have hminus : b ≠ 0x2d := by
        rintro rfl
        exact absurd hb (by decide)
      have hplus : b ≠ 0x2b := by
        rintro rfl
        exact absurd hb (by decide)
      rw [List.nil_append, exponentParts, if_neg hminus, if_neg hplus]
      rfl
  · rfl
  · rfl

theorem exponentParts_ok {rest digits : List Byte} {negative : Bool}
    (h : exponentParts (some rest) = (negative, digits)) :
    ∃ sign, (sign = [] ∨ sign = [0x2d] ∨ sign = [0x2b]) ∧ rest = sign ++ digits := by
  cases rest with
  | nil =>
    cases h
    exact ⟨[], .inl rfl, rfl⟩
  | cons b rest =>
    rw [exponentParts] at h
    split at h
    · rename_i hb
      cases h
      exact ⟨[0x2d], .inr (.inl rfl), by rw [hb]; rfl⟩
    · split at h
      · rename_i hb
        cases h
        exact ⟨[0x2b], .inr (.inr rfl), by rw [hb]; rfl⟩
      · cases h
        exact ⟨[], .inl rfl, rfl⟩

/-! ### The canonical form -/

namespace Form

/-- The form of zero. -/
def zero : Form := ⟨false, [], false, []⟩

def value (v : Form) : ℚ :=
  (if v.negative then -1 else 1) * Decimal.value v.digits * 10 ^ signedValue v.expNegative v.expDigits

/-- Either zero, or significant digits and an exponent spelt canonically. -/
def Canonical (v : Form) : Prop := v = zero ∨ (Significant v.digits ∧ CanonicalExponent v.expNegative v.expDigits)

theorem value_zero : zero.value = 0 := by simp [value, zero, Decimal.value]

theorem value_ne_zero {v : Form} (h : Significant v.digits) : v.value ≠ 0 := by
  have hpos : (Decimal.value v.digits : ℚ) ≠ 0 := by exact_mod_cast Nat.ne_of_gt h.1.pos
  have hsign : (if v.negative then (-1 : ℚ) else 1) ≠ 0 := by split <;> norm_num
  exact mul_ne_zero (mul_ne_zero hsign hpos) (zpow_ne_zero _ (by norm_num))

/-- **Equal numbers have equal forms.** -/
theorem Canonical.inj {v w : Form} (hv : v.Canonical) (hw : w.Canonical) (h : v.value = w.value) : v = w := by
  rcases hv with rfl | ⟨hvd, hve⟩
  · rcases hw with rfl | ⟨hwd, _⟩
    · rfl
    · exact absurd (h.symm.trans value_zero) (value_ne_zero hwd)
  · rcases hw with rfl | ⟨hwd, hwe⟩
    · exact absurd (h.trans value_zero) (value_ne_zero hvd)
    · have hpos : ∀ {u : Form}, Significant u.digits → (0 : ℚ) < Decimal.value u.digits *
        10 ^ signedValue u.expNegative u.expDigits := by
        intro u hu
        have : (0 : ℚ) < Decimal.value u.digits := by exact_mod_cast hu.1.pos
        positivity
      have hvpos := hpos hvd
      have hwpos := hpos hwd
      obtain ⟨nv, dv, ev, xv⟩ := v
      obtain ⟨nw, dw, ew, xw⟩ := w
      simp only [value, mul_assoc] at h hvd hve hwd hwe hvpos hwpos
      have hboth : nv = nw ∧ (Decimal.value dv : ℚ) * 10 ^ signedValue ev xv = Decimal.value dw *
        10 ^ signedValue ew xw := by
        cases nv <;> cases nw
        · exact ⟨rfl, by simpa using h⟩
        · simp only [Bool.false_eq_true, if_false, if_true] at h
          linarith
        · simp only [Bool.false_eq_true, if_false, if_true] at h
          linarith
        · exact ⟨rfl, by simpa using h⟩
      obtain ⟨rfl, hexp⟩ := hvd.inj hwd hboth.2
      obtain ⟨rfl, rfl⟩ := hve.inj hwe hexp
      rw [hboth.1]

end Form

/-- The count of zeros against places behind the point. -/
theorem signedValue_count (trailing places : Nat) :
    signedValue (decide (trailing < places)) (usizeDigits (max trailing places - min trailing places)) =
    (trailing : ℤ) - places := by
  unfold signedValue
  rw [(usizeDigits_spec _).2]
  by_cases h : trailing < places
  · rw [if_pos (decide_eq_true h)]
    omega
  · rw [if_neg (by simpa using h)]
    omega

theorem signedValue_trimZeroes (negative : Bool) (digits : List Byte) :
    signedValue negative (trimZeroes digits) = signedValue negative digits := by
  simp only [signedValue, trimZeroes, Decimal.value_dropWhile]

/-- **Every number of the grammar is brought into canonical form, and keeps its value.** -/
theorem finishNumber_text {t : NumberText} (h : t.Loose) :
    ∃ v, finishNumber t.text = .ok v ∧ v.Canonical ∧ v.value = t.value := by
  have hdigits : AllDigits (t.integer ++ t.fraction.getD []) := by
    refine Decimal.allDigits_append.2 ⟨h.integer.2, ?_⟩
    cases hf : t.fraction with
    | none => exact Decimal.allDigits_nil
    | some f => exact (h.fraction f hf).2
  -- what the exponent is read as
  obtain ⟨rawNegative, rawDigits, hexp, hraw, hgood, hvalue⟩ : ∃ rawNegative rawDigits,
      exponentParts (t.exponent.map fun e => e.2.1 ++ e.2.2) = (rawNegative, rawDigits) ∧ AllDigits rawDigits ∧
        ¬ ((t.exponent.map fun e => e.2.1 ++ e.2.2).isSome = true ∧ rawDigits = []) ∧ t.exponentValue =
        signedValue rawNegative rawDigits := by
    unfold NumberText.exponentValue
    cases he : t.exponent with
    | none => exact ⟨false, [], rfl, Decimal.allDigits_nil, by simp, rfl⟩
    | some e =>
      obtain ⟨mark, sign, digits⟩ := e
      obtain ⟨_, hsign, hne, hdigits⟩ := h.exponent _ _ _ he
      exact ⟨_, digits, exponentParts_text hsign hdigits, hdigits, by simp [hne], rfl⟩
  unfold finishNumber normalizeNumberInto
  rw [numberParts_text h]
  simp only [bind, Except.bind]
  generalize hs : (t.integer ++ t.fraction.getD []).foldl pushMantissa (true, 0, []) = s
  rcases mantissa_spec hdigits hs with ⟨hzero, hnone⟩ | ⟨hsome, hsignificant, hlen, hmantissa⟩
  · rw [if_pos hzero]
    refine ⟨Form.zero, rfl, .inl rfl, ?_⟩
    rw [Form.value_zero, NumberText.value, hnone]
    simp
  · rw [if_neg hsome, hexp]
    dsimp only
    rw [if_neg (by rintro (hbad | hbad); exacts [hgood hbad, hbad hraw])]
    have htrim : AllDigits (trimZeroes rawDigits) := (Decimal.trimmed_dropWhile hraw).1
    obtain ⟨digits, negative, happend, hcanonical, hsum⟩ := appendAdjustedExponent_spec (s.2.2.take s.2.1) rawNegative
      (decide (s.2.2.length - s.2.1 < (t.fraction.getD []).length)) htrim
      (usizeDigits_spec (max (s.2.2.length - s.2.1) (t.fraction.getD []).length - min (s.2.2.length - s.2.1)
        (t.fraction.getD []).length)).1
    rw [happend]
    dsimp only
    rw [List.drop_left, List.take_append_of_le_length (by rw [hlen]), List.take_of_length_le (by rw [hlen])]
    refine ⟨_, rfl, .inr ⟨hsignificant, hcanonical⟩, ?_⟩
    unfold Form.value NumberText.value
    dsimp only
    rw [hsum, signedValue_count, signedValue_trimZeroes, hmantissa, hvalue]
    push_cast
    rw [mul_assoc, mul_assoc, mul_assoc, ← zpow_natCast, ← zpow_add₀ (by norm_num)]
    congr 3
    ring

/-- **Only texts of the grammar are accepted**, up to zeros in front, where some digit is not a zero. -/
theorem finishNumber_ok {raw : List Byte} {v : Form} (h : finishNumber raw = .ok v) (hv : v.digits ≠ []) :
    ∃ t : NumberText, t.Loose ∧ t.text = raw := by
  unfold finishNumber at h
  obtain ⟨⟨record, scratch⟩, hnormalize, h⟩ := bind_ok h
  cases h
  obtain ⟨⟨negative, integer, fraction, exponent⟩, hparts, hnormalize⟩ := bind_ok hnormalize
  obtain ⟨hinteger, hfraction, tail, hraw, htail⟩ := numberParts_ok hparts
  dsimp only at hnormalize
  generalize (integer ++ fraction.getD []).foldl pushMantissa (true, 0, []) = s at hnormalize
  obtain ⟨leading, last, kept⟩ := s
  dsimp only at hnormalize
  split at hnormalize
  · cases hnormalize
    exact absurd rfl hv
  · generalize hexp : exponentParts exponent = parts at hnormalize
    obtain ⟨rawNegative, rawDigits⟩ := parts
    dsimp only at hnormalize
    split at hnormalize
    · cases hnormalize
    · rename_i hgood
      rw [not_or, not_not] at hgood
      rcases htail with ⟨rfl, rfl⟩ | ⟨mark, rest, rfl, hmark, rfl⟩
      · exact ⟨⟨negative, integer, fraction, none⟩, ⟨hinteger, hfraction, fun _ _ _ h => by cases h⟩, by rw [hraw]; rfl⟩
      · obtain ⟨sign, hsign, rfl⟩ := exponentParts_ok hexp
        refine ⟨⟨negative, integer, fraction, some (mark, sign, rawDigits)⟩, ⟨hinteger, hfraction, fun m g d he => ?_⟩,
          by rw [hraw]; rfl⟩
        cases he
        exact ⟨hmark, hsign, fun hnil => hgood.1 ⟨rfl, hnil⟩, hgood.2⟩

/-- **Whatever is accepted begins with a mantissa of the grammar**, and goes on, if at all, with an exponent's mark. -/
theorem finishNumber_mantissa {raw : List Byte} {v : Form} (h : finishNumber raw = .ok v) :
    ∃ (t : NumberText) (tail : List Byte), t.Loose ∧ t.exponent = none ∧ t.text ++ tail = raw ∧
      ∀ b ∈ tail.head?, b = 0x65 ∨ b = 0x45 := by
  unfold finishNumber at h
  obtain ⟨⟨record, scratch⟩, hnormalize, _⟩ := bind_ok h
  obtain ⟨⟨negative, integer, fraction, exponent⟩, hparts, _⟩ := bind_ok hnormalize
  obtain ⟨hinteger, hfraction, tail, hraw, htail⟩ := numberParts_ok hparts
  refine ⟨⟨negative, integer, fraction, none⟩, tail, ⟨hinteger, hfraction, fun _ _ _ h => by cases h⟩, rfl, ?_, ?_⟩
  · rw [hraw, NumberText.text, Option.elim_none, List.append_nil]
  · rcases htail with ⟨_, rfl⟩ | ⟨mark, rest, _, hmark, rfl⟩
    · exact fun b hb => by cases hb
    · intro b hb
      cases hb
      exact hmark

/-- **Decimal normalization is canonical.**  It succeeds on every JSON number; two of them have equal forms exactly if
they denote the same number; zero has one form; whatever else is accepted with a digit that is not zero differs from a
JSON number by zeros in front alone, and is given the form of the number it denotes; and nothing is accepted that does
not begin with a mantissa, zeros in front apart, behind which there is nothing or an exponent's mark. -/
theorem normalization_canonical :
    (∀ p q : NumberText, p.Json → q.Json → ∃ v w, finishNumber p.text = .ok v ∧ finishNumber q.text = .ok w ∧
      (v = w ↔ p.value = q.value)) ∧
      (∀ p : NumberText, p.Json → p.value = 0 → finishNumber p.text = .ok Form.zero) ∧
      (∀ raw v, finishNumber raw = .ok v → v.digits ≠ [] → ∃ t : NumberText, t.Loose ∧ t.text = raw ∧ v.Canonical ∧
        v.value = t.value) ∧
      ∀ raw v, finishNumber raw = .ok v → ∃ (t : NumberText) (tail : List Byte), t.Loose ∧ t.exponent = none ∧
        t.text ++ tail = raw ∧ ∀ b ∈ tail.head?, b = 0x65 ∨ b = 0x45 := by
  refine ⟨fun p q hp hq => ?_, fun p hp hzero => ?_, fun raw v h hv => ?_, fun raw v h => finishNumber_mantissa h⟩
  · obtain ⟨v, hv, hvc, hvv⟩ := finishNumber_text hp.toLoose
    obtain ⟨w, hw, hwc, hwv⟩ := finishNumber_text hq.toLoose
    refine ⟨v, w, hv, hw, ?_, fun h => hvc.inj hwc (by rw [hvv, hwv, h])⟩
    rintro rfl
    rw [← hvv, ← hwv]
  · obtain ⟨v, hv, hvc, hvv⟩ := finishNumber_text hp.toLoose
    have heq : v = Form.zero := hvc.inj (.inl rfl) (by rw [hvv, hzero, Form.value_zero])
    rw [hv, heq]
  · obtain ⟨t, ht, htext⟩ := finishNumber_ok h hv
    obtain ⟨v', hv', hcanonical, hvalue⟩ := finishNumber_text ht
    rw [htext, h] at hv'
    cases hv'
    exact ⟨t, ht, htext, hcanonical, hvalue⟩

/-- `1` and `10e-1`. -/
theorem normalization_canonical_one :
    ∃ v w, finishNumber [0x31] = .ok v ∧ finishNumber [0x31, 0x30, 0x65, 0x2d, 0x31] = .ok w ∧ v = w := by
  have hone : Positive [0x31] := ⟨Decimal.allDigits_cons.2 ⟨by decide, Decimal.allDigits_nil⟩, 0x31, [], rfl, by decide⟩
  have hten : Positive [0x31, 0x30] :=
    ⟨Decimal.allDigits_cons.2 ⟨by decide, Decimal.allDigits_cons.2 ⟨by decide, Decimal.allDigits_nil⟩⟩, 0x31, [0x30],
      rfl, by decide⟩
  have hp : (⟨false, [0x31], none, none⟩ : NumberText).Json :=
    ⟨⟨⟨List.cons_ne_nil _ _, hone.1⟩, fun _ h => (by cases h), fun _ _ _ h => (by cases h)⟩, .inr hone⟩
  have hq : (⟨false, [0x31, 0x30], none, some (0x65, [0x2d], [0x31])⟩ : NumberText).Json := by
    refine ⟨⟨⟨List.cons_ne_nil _ _, hten.1⟩, fun _ h => (by cases h), fun mark sign digits h => ?_⟩, .inr hten⟩
    cases h
    exact ⟨.inl rfl, .inr (.inl rfl), List.cons_ne_nil _ _, hone.1⟩
  obtain ⟨v, w, hv, hw, hiff⟩ := normalization_canonical.1 _ _ hp hq
  refine ⟨v, w, hv, hw, hiff.2 ?_⟩
  have h1 : Decimal.value [0x31] = 1 := by decide
  have h10 : Decimal.value [0x31, 0x30] = 10 := by decide
  simp only [NumberText.value, NumberText.exponentValue, signedValue, Option.getD_none, List.append_nil,
    Option.elim_none, Option.elim_some, h1, h10]
  norm_num

/-- `01` is no JSON number, and it is accepted. -/
theorem normalization_leading_zero :
    ¬ ∀ raw, (∀ t : NumberText, t.Json → t.text ≠ raw) → finishNumber raw = .error .malformed := by
  intro h
  have hdigits : AllDigits [0x30, 0x31] := Decimal.allDigits_cons.2
    ⟨by decide, Decimal.allDigits_cons.2 ⟨by decide, Decimal.allDigits_nil⟩⟩
  have hloose : (⟨false, [0x30, 0x31], none, none⟩ : NumberText).Loose :=
    ⟨⟨List.cons_ne_nil _ _, hdigits⟩, fun _ h => (by cases h), fun _ _ _ h => (by cases h)⟩
  obtain ⟨v, hv, _⟩ := finishNumber_text hloose
  have herror := h [0x30, 0x31] fun t ht htext => by
    have hparts := numberParts_text ht.toLoose
    have hcut := numberParts_text hloose
    change numberParts [0x30, 0x31] = _ at hcut
    rw [htext, hcut] at hparts
    have hinteger : t.integer = [0x30, 0x31] := (congrArg (fun x => x.2.1) (Except.ok.inj hparts)).symm
    rcases ht.noLeadingZero with hz | ⟨_, b, u, hb, hne⟩
    · rw [hinteger] at hz
      exact absurd hz (by decide)
    · rw [hinteger] at hb
      exact hne (List.cons.inj hb).1.symm
  change finishNumber [0x30, 0x31] = _ at hv
  rw [hv] at herror
  cases herror

/-- Where every digit is a zero the exponent is not read, so that whatever follows its mark is accepted. -/
theorem finishNumber_zero_mantissa {raw integer : List Byte} {negative : Bool} {fraction exponent : Option (List Byte)}
    (h : numberParts raw = .ok (negative, integer, fraction, exponent))
    (hzero : Decimal.value (integer ++ fraction.getD []) = 0) :
    finishNumber raw = .ok Form.zero := by
  obtain ⟨hinteger, hfraction, _⟩ := numberParts_ok h
  have hdigits : AllDigits (integer ++ fraction.getD []) := by
    refine Decimal.allDigits_append.2 ⟨hinteger.2, ?_⟩
    cases fraction with
    | none => exact Decimal.allDigits_nil
    | some f => exact (hfraction f rfl).2
  unfold finishNumber normalizeNumberInto
  rw [h]
  simp only [bind, Except.bind]
  generalize hs : (integer ++ fraction.getD []).foldl pushMantissa (true, 0, []) = s
  rcases mantissa_spec hdigits hs with ⟨hnone, _⟩ | ⟨_, hsignificant, _, hvalue⟩
  · rw [if_pos hnone]
    rfl
  · have hpos := Nat.mul_pos hsignificant.1.pos (Nat.pow_pos (n := s.2.2.length - s.2.1) (by decide : 0 < 10))
    omega

end NumberForm
end MaskForge
