import MaskForge.Frontend.Ast
import MaskForge.Structured.NumberExact
/-!
# NumericToken — the numbers of a schema, read from their tokens

The frontend reads a number by shifting the decimal point of its digits, and once for each purpose: a count,
whether it is an integer, an `i64`, and a coefficient over a power of ten.  Each has cuts of its own for exponents
it will not follow.
-/
namespace MaskForge
namespace Frontend

open Decimal (AllDigits IsDigit value digitValue)
open NumberForm (NumberText signedValue splitAtByte)

/-! ### Reading integers -/

def i64Min : Int := -2 ^ 63

def i64Max : Int := 2 ^ 63 - 1

def i128Max : Int := 2 ^ 127 - 1

/-- `str::parse` of an integer type from `lo` to `hi`: a minus sign only where there are negative values. -/
def parseInt (lo hi : Int) (s : List Byte) : Option Int :=
  match s with
  | [] => none
  | b :: rest =>
    let (negative, digits) := if b = 0x2b then (false, rest) else if b = 0x2d ∧ lo < 0 then (true, rest)
      else (false, b :: rest)
    if digits = [] ∨ ¬ ∀ d ∈ digits, IsDigit d then none
    else
      let n := signedValue negative digits
      if lo ≤ n ∧ n ≤ hi then some n else none

def parseI64 : List Byte → Option Int := parseInt i64Min i64Max

def parseU64 : List Byte → Option Int := parseInt 0 u64Max

def parseI128 : List Byte → Option Int := parseInt (-2 ^ 127) i128Max

def isMark (b : Byte) : Bool := decide (b = 0x65 ∨ b = 0x45)

def isPoint (b : Byte) : Bool := decide (b = 0x2e)

/-- `strip_prefix('-')`. -/
def stripMinus : List Byte → Option (List Byte)
  | [] => none
  | b :: rest => if b = 0x2d then some rest else none

/-- `rest.split_once(['e', 'E'])`, an absent exponent read as `"0"`. -/
def splitExponent (rest : List Byte) : List Byte × List Byte :=
  let (mantissa, exponent) := splitAtByte isMark rest
  (mantissa, exponent.getD [0x30])

def splitPoint (mantissa : List Byte) : List Byte × List Byte :=
  let (integer, fraction) := splitAtByte isPoint mantissa
  (integer, fraction.getD [])

/-! ### The readers -/

def numericTokenIsZero (token : List Byte) : Bool :=
  ((splitAtByte isMark token).1.filter fun b => decide (IsDigit b)).all fun b => decide (b = 0x30)

def numericTokenIsInteger (token : List Byte) : Bool :=
  if numericTokenIsZero token then true
  else
    let rest := (stripMinus token).getD token
    let (mantissa, exponent) := splitExponent rest
    match parseI64 exponent with
    | none => !decide (exponent.head? = some 0x2d)
    | some e =>
      let (integer, fraction) := splitPoint mantissa
      let point := integer.length + e
      if i64Max < integer.length ∨ i64Max < point then decide (0 < e)
      else if i64Max < (integer.length + fraction.length : Nat) then decide (0 ≤ point)
      else if (integer.length + fraction.length : Nat) ≤ point then true
      else ((integer ++ fraction).drop (max point 0).toNat).all fun b => decide (b = 0x30)

/-- So many multiplications by ten, each checked against a maximum. -/
def timesTen (most : Int) : Nat → Int → Option Int
  | 0, n => some n
  | k + 1, n => if n * 10 ≤ most then timesTen most k (n * 10) else none

/-- `u32::try_from` of a scale, and the zeros its coefficient can do without. -/
def trimmedScale (coefficient scale : Int) : Option (Nat × Nat) :=
  if 0 ≤ scale ∧ scale < u32Size then some (trimScale coefficient.toNat scale.toNat) else none

def decimalTokenScaled (token : List Byte) : Option (Int × Nat) := do
  let (neg, rest) := ((stripMinus token).map (true, ·)).getD (false, token)
  let (mantissa, exponent) := splitExponent rest
  let exponent ← parseI64 exponent
  let (intPart, fracPart) := splitPoint mantissa
  let mag ← parseI128 (intPart ++ fracPart)
  let scale : Int := fracPart.length - exponent
  if scale < i64Min ∨ i64Max < scale then none
  else if mag = 0 then some (0, 0)
  else if scale < 0 then
    if scale = i64Min ∨ 39 < ((intPart ++ fracPart).dropWhile fun b => decide (b = 0x30)).length + (-scale).toNat
      then none
    else
      let mag ← timesTen i128Max (-scale).toNat mag
      some (if neg then -mag else mag, 0)
  else
    let (mag, scale) ← trimmedScale mag scale
    some (if neg then -(mag : Int) else mag, scale)

def decimalTokenAsCoefExp (token : List Byte) : Option (Nat × Nat) := do
  if token.head? = some 0x2d then none
  else
    let (mantissa, exponent) := splitExponent token
    let exponent ← parseI64 exponent
    let (intPart, fracPart) := splitPoint mantissa
    let coef ← parseU64 (intPart ++ fracPart)
    let exp : Int := fracPart.length - exponent
    if exp < i64Min ∨ i64Max < exp then none
    else if exp < 0 then
      let coef ← timesTen u64Max (-exp).toNat coef
      some (coef.toNat, 0)
    else trimmedScale coef exp

def numericTokenAsI64 (token : List Byte) : Option Int := do
  let (neg, rest) := ((stripMinus token).map (true, ·)).getD (false, token)
  let (mantissa, expStr) := splitAtByte isMark rest
  let exp ← expStr.elim (some 0) parseI64
  -- `checked_abs` fails at the least `i64`
  if exp = i64Min ∨ 1000 < |exp| then none
  else
    let (intPart, fracPart) := splitPoint mantissa
    let digits := intPart ++ fracPart
    if digits = [] ∨ ¬ ∀ b ∈ digits, IsDigit b then none
    else
      let pointPos : Int := intPart.length + exp
      if i64Max < pointPos then none
      else if pointPos < digits.length ∧ ∃ b ∈ digits.drop (max pointPos 0).toNat, b ≠ 0x30 then none
      else if 19 < pointPos then none
      else
        let intDigitCount := (max pointPos 0).toNat
        let kept := digits.take (min pointPos.toNat digits.length)
        let intDigits := if 0 < pointPos then kept ++ List.replicate (intDigitCount - kept.length) 0x30 else []
        let magnitude ← if intDigits = [] then some 0 else parseI128 intDigits
        let n := if neg then -magnitude else magnitude
        if i64Min ≤ n ∧ n ≤ i64Max then some n else none

inductive CountBound where
  | fits (n : Nat)
  | aboveU32
  deriving DecidableEq, Repr

def countField (fields : List (Text × Ast)) (key ptr : Text) : Except FrontendError (Option CountBound) :=
  match get fields key with
  | none => .ok none
  | some (.num token) =>
    match numericTokenAsI64 token with
    | some n =>
      if n < 0 then .error (malformed (childPtr ptr key) key "count must be non-negative")
      else .ok (some (if n < u32Size then .fits n.toNat else .aboveU32))
    | none =>
      if token.head? = some 0x2d ∧ numericTokenIsZero token = false then
        .error (malformed (childPtr ptr key) key "count must be non-negative")
      else if numericTokenIsInteger token then .ok (some .aboveU32)
      else .error (malformed (childPtr ptr key) key "count must be an integer")
  | some _ => .error (malformed (childPtr ptr key) key "count must be a number")

/-! ### Moving the point -/

theorem value_eq_zero_iff {w : List Byte} (h : AllDigits w) : value w = 0 ↔ ∀ b ∈ w, b = 0x30 := by
  constructor
  · intro hzero
    have hnil := (Decimal.trimmed_dropWhile h).value_eq_zero.1 (by rw [Decimal.value_dropWhile, hzero])
    simpa using List.dropWhile_eq_nil_iff.1 hnil
  · intro hall
    rw [List.eq_replicate_of_mem hall]
    exact NumberForm.value_zeros _

/-- The digits behind a point at `p` are the fraction: without them the digits are an integer, and that integer. -/
theorem shift_eq {w : List Byte} {p : ℤ} (h : (w.length : ℤ) ≤ p ∨ ∀ b ∈ w.drop p.toNat, b = 0x30) (hw : AllDigits w) :
    (value w : ℚ) * 10 ^ (p - w.length) = value (w.take p.toNat ++ List.replicate (p.toNat - w.length) 0x30) := by
  rw [Decimal.value_append, NumberForm.value_zeros, List.length_replicate, Nat.add_zero]
  by_cases hle : (w.length : ℤ) ≤ p
  · rw [List.take_of_length_le (by omega), show p - w.length = ((p.toNat - w.length : ℕ) : ℤ) by omega, zpow_natCast]
    push_cast
    rfl
  · have hdrop := h.resolve_left hle
    rw [show p.toNat - w.length = 0 by omega, pow_zero, Nat.mul_one]
    have hsplit : value w = value (w.take p.toNat) * 10 ^ (w.length - p.toNat) := by
      conv_lhs => rw [← List.take_append_drop p.toNat w]
      rw [Decimal.value_append, (value_eq_zero_iff fun b hb => hw b (List.mem_of_mem_drop hb)).2 hdrop,
        List.length_drop, Nat.add_zero]
    by_cases hp : 0 ≤ p
    · rw [hsplit, show p - w.length = -((w.length - p.toNat : ℕ) : ℤ) by omega, zpow_neg, zpow_natCast]
      push_cast
      rw [mul_assoc, mul_inv_cancel₀ (by positivity), mul_one]
    · have hzero : value w = 0 := by
        rw [hsplit, show p.toNat = 0 by omega, List.take_zero, Decimal.value_nil, Nat.zero_mul]
      rw [hzero, show p.toNat = 0 by omega]
      simp

/-- **Digits with a point are an integer exactly without a fraction.** -/
theorem shift_integer_iff {w : List Byte} {p : ℤ} (hw : AllDigits w) :
    (∃ k : ℤ, (value w : ℚ) * 10 ^ (p - w.length) = k) ↔ (w.length : ℤ) ≤ p ∨ ∀ b ∈ w.drop p.toNat, b = 0x30 := by
  refine ⟨fun ⟨k, hk⟩ => ?_, fun h => ⟨_, by rw [shift_eq h hw]; exact (Int.cast_natCast _).symm⟩⟩
  by_contra hnot
  push Not at hnot
  obtain ⟨hlt, b, hb, hne⟩ := hnot
  have hdigits : AllDigits (w.drop p.toNat) := fun b hb => hw b (List.mem_of_mem_drop hb)
  have hpos : 0 < value (w.drop p.toNat) := Nat.pos_of_ne_zero fun hzero => hne
    ((value_eq_zero_iff hdigits).1 hzero b hb)
  have hless := Decimal.value_lt hdigits
  rw [List.length_drop] at hless
  have hsplit : value w = value (w.take p.toNat) * 10 ^ (w.length - p.toNat) + value (w.drop p.toNat) := by
    conv_lhs => rw [← List.take_append_drop p.toNat w]
    rw [Decimal.value_append, List.length_drop]
  obtain ⟨m, hm⟩ : ∃ m : ℕ, (w.length : ℤ) - p = m := ⟨_, (Int.toNat_of_nonneg (by omega)).symm⟩
  -- the number is a multiple of a power of ten that its last digits are below
  have hmultiple : (value w : ℤ) = k * 10 ^ m := by
    have hpow : (10 : ℚ) ^ (p - w.length) = (10 ^ m)⁻¹ := by
      rw [show p - w.length = -(m : ℤ) by omega, zpow_neg, zpow_natCast]
    rw [hpow, mul_inv_eq_iff_eq_mul₀ (by positivity)] at hk
    exact_mod_cast hk
  have hdvd : 10 ^ (w.length - p.toNat) ∣ value w := by
    have hz : (10 : ℤ) ^ (w.length - p.toNat) ∣ value w := hmultiple ▸ (pow_dvd_pow 10 (by omega)).mul_left k
    exact_mod_cast hz
  rw [hsplit, Nat.dvd_add_right (Nat.dvd_mul_left _ _)] at hdvd
  exact absurd (Nat.le_of_dvd hpos hdvd) (by omega)

/-! ### The parts of a token -/

/-- A number of JSON as a Rust `str` holds it. -/
structure NumericToken extends NumberText where
  json : toNumberText.Json
  fits : toNumberText.text.length < 2 ^ 63

namespace NumericToken

variable (t : NumericToken)

def mantissa : List Byte := t.integer ++ t.fraction.elim [] fun f => 0x2e :: f

def digits : List Byte := t.integer ++ t.fraction.getD []

/-- Where the point of the digits stands, exponent and all. -/
def point : ℤ := t.integer.length + t.exponentValue

theorem text_eq : t.text = (if t.negative then [0x2d] else []) ++ t.mantissa ++ t.exponent.elim [] fun e => e.1 ::
    (e.2.1 ++ e.2.2) := rfl

theorem digits_all : AllDigits t.digits := by
  refine Decimal.allDigits_append.2 ⟨t.json.integer.2, ?_⟩
  cases hf : t.fraction with
  | none => exact Decimal.allDigits_nil
  | some f => exact (t.json.fraction f hf).2

theorem digits_ne_nil : t.digits ≠ [] := by
  simp [digits, t.json.integer.1]

theorem length_digits : t.digits.length = t.integer.length + (t.fraction.getD []).length := List.length_append

theorem length_lt : t.digits.length < 2 ^ 63 := by
  have hfits := t.fits
  rw [text_eq] at hfits
  have hmantissa : t.digits.length ≤ t.mantissa.length := by
    unfold digits mantissa
    cases t.fraction <;> simp
  simp only [List.length_append] at hfits
  omega

/-- **A token's value is its digits with the point moved.** -/
theorem value_eq : t.value = (if t.negative then -1 else 1) *
    ((Decimal.value t.digits : ℚ) * 10 ^ (t.point - t.digits.length)) := by
  rw [NumberText.value, mul_assoc, length_digits, point]
  congr 3
  push_cast
  ring

theorem split_mark (sign : List Byte) (hsign : ∀ b ∈ sign, isMark b = false) :
    splitAtByte isMark (sign ++ t.mantissa ++ t.exponent.elim [] fun e => e.1 :: (e.2.1 ++ e.2.2)) =
      (sign ++ t.mantissa, t.exponent.map fun e => e.2.1 ++ e.2.2) := by
  have hdigit : ∀ {w : List Byte}, AllDigits w → ∀ b ∈ w, isMark b = false := fun hw b hb =>
    NumberForm.digit_not_mark (hw b hb)
  have hbefore : ∀ b ∈ sign ++ t.mantissa, isMark b = false := by
    intro b hb
    rcases List.mem_append.1 hb with hb | hb
    · exact hsign b hb
    rcases List.mem_append.1 hb with hb | hb
    · exact hdigit t.json.integer.2 b hb
    · cases hf : t.fraction with
      | none =>
        rw [hf] at hb
        cases hb
      | some f =>
        rw [hf, Option.elim_some, List.mem_cons] at hb
        rcases hb with rfl | hb
        · rfl
        · exact hdigit (t.json.fraction f hf).2 b hb
  cases he : t.exponent with
  | none =>
    rw [Option.elim_none, List.append_nil]
    exact NumberForm.splitAtByte_none hbefore
  | some e =>
    obtain ⟨mark, s, ds⟩ := e
    have hmark : isMark mark = true := decide_eq_true (t.json.exponent _ _ _ he).1
    exact NumberForm.splitAtByte_some hbefore hmark

theorem split_point : splitPoint t.mantissa = (t.integer, t.fraction.getD []) := by
  have hbefore : ∀ b ∈ t.integer, isPoint b = false := fun b hb => NumberForm.digit_not_dot (t.json.integer.2 b hb)
  unfold splitPoint mantissa
  cases t.fraction with
  | none =>
    rw [Option.elim_none, List.append_nil, NumberForm.splitAtByte_none hbefore]
  | some f =>
    rw [Option.elim_some, NumberForm.splitAtByte_some hbefore rfl]

/-- What follows the sign. -/
def unsigned : List Byte := t.mantissa ++ t.exponent.elim [] fun e => e.1 :: (e.2.1 ++ e.2.2)

theorem strip_minus : stripMinus t.text = if t.negative then some t.unsigned else none := by
  rw [text_eq]
  cases t.negative with
  | true => rfl
  | false =>
    obtain ⟨b, rest, hb, hne⟩ : ∃ b rest, t.integer = b :: rest ∧ b ≠ 0x2d := by
      obtain ⟨b, rest, hb⟩ := List.exists_cons_of_ne_nil t.json.integer.1
      refine ⟨b, rest, hb, fun h => ?_⟩
      have hdigit := t.json.integer.2 b (hb ▸ List.mem_cons_self)
      rw [h] at hdigit
      exact absurd hdigit (by decide)
    simp [mantissa, hb, stripMinus, hne]

theorem split_unsigned : splitAtByte isMark t.unsigned = (t.mantissa, t.exponent.map fun e => e.2.1 ++ e.2.2) :=
  t.split_mark [] fun _ h => absurd h List.not_mem_nil

/-- A signed number is parsed where it is in range. -/
theorem parseInt_signed {lo hi : Int} {sign ds : List Byte} (hsign : sign = [] ∨ sign = [0x2d] ∧ lo < 0 ∨ sign = [0x2b])
    (hne : ds ≠ []) (hds : AllDigits ds) : parseInt lo hi (sign ++ ds) =
      if lo ≤ signedValue (decide (sign = [0x2d])) ds ∧ signedValue (decide (sign = [0x2d])) ds ≤ hi then
        some (signedValue (decide (sign = [0x2d])) ds) else none := by
  have hbad : ¬(ds = [] ∨ ¬ ∀ d ∈ ds, IsDigit d) := by
    rintro (h | h)
    · exact hne h
    · exact h hds
  rcases hsign with rfl | ⟨rfl, hlo⟩ | rfl
  · obtain ⟨b, rest, rfl⟩ := List.exists_cons_of_ne_nil hne
    have hdigit := hds.head
    have hplus : b ≠ 0x2b := fun h => by
      rw [h] at hdigit
      exact absurd hdigit (by decide)
    have hminus : b ≠ 0x2d := fun h => by
      rw [h] at hdigit
      exact absurd hdigit (by decide)
    simp only [List.nil_append, parseInt, if_neg hplus, if_neg fun h : b = 0x2d ∧ lo < 0 => hminus h.1, if_neg hbad]
    rfl
  · simp only [List.singleton_append, parseInt, if_neg (show (0x2d : Byte) ≠ 0x2b by decide), hlo, and_self, if_true,
      if_neg hbad, decide_true]
  · simp only [List.singleton_append, parseInt, if_true, if_neg hbad]
    rfl

/-- The exponent is read where an `i64` holds it. -/
theorem parse_exponent : parseI64 ((t.exponent.map fun e => e.2.1 ++ e.2.2).getD [0x30]) =
    if i64Min ≤ t.exponentValue ∧ t.exponentValue ≤ i64Max then some t.exponentValue else none := by
  unfold NumberText.exponentValue
  cases he : t.exponent with
  | none =>
    exact @parseInt_signed i64Min i64Max [] [0x30] (.inl rfl) (by simp)
      (Decimal.allDigits_cons.2 ⟨by decide, Decimal.allDigits_nil⟩)
  | some e =>
    obtain ⟨mark, sign, ds⟩ := e
    obtain ⟨_, hsign, hne, hds⟩ := t.json.exponent _ _ _ he
    refine parseInt_signed ?_ hne hds
    rcases hsign with h | h | h
    · exact .inl h
    · exact .inr (.inl ⟨h, by decide⟩)
    · exact .inr (.inr h)

/-- Plain digits are parsed where they are in range. -/
theorem parse_digits {lo hi : Int} {ds : List Byte} (hne : ds ≠ []) (hds : AllDigits ds) (hlo : lo ≤ 0) :
    parseInt lo hi ds = if (value ds : Int) ≤ hi then some (value ds : Int) else none := by
  have hparse := @parseInt_signed lo hi [] ds (.inl rfl) hne hds
  have hvalue : signedValue (decide (([] : List Byte) = [0x2d])) ds = value ds := rfl
  rw [List.nil_append, hvalue] at hparse
  rw [hparse]
  exact if_congr (and_iff_right (by omega)) rfl rfl

/-! ### What the readers read -/

/-- Only zeros are zero. -/
theorem isZero_iff : numericTokenIsZero t.text = true ↔ value t.digits = 0 := by
  have hsign : ∀ b ∈ (if t.negative then [0x2d] else [] : List Byte), isMark b = false := by
    cases t.negative <;> simp [isMark]
  have hdigits : ∀ {w : List Byte}, AllDigits w → w.filter (fun b => decide (IsDigit b)) = w := fun hw =>
    List.filter_eq_self.2 fun b hb => decide_eq_true (hw b hb)
  have hfilter : ((if t.negative then [0x2d] else []) ++ t.mantissa).filter (fun b => decide (IsDigit b)) =
    t.digits := by
    have hminus : ¬ IsDigit 0x2d := by decide
    have hpoint : ¬ IsDigit 0x2e := by decide
    rw [List.filter_append, mantissa, List.filter_append, hdigits t.json.integer.2, digits]
    cases hf : t.fraction with
    | none => cases t.negative <;> simp [hminus]
    | some f =>
      have hfraction := hdigits (t.json.fraction f hf).2
      cases t.negative <;> simp [hminus, hpoint, hfraction]
  rw [numericTokenIsZero, text_eq, t.split_mark _ hsign, hfilter, value_eq_zero_iff t.digits_all]
  simp

/-- The sign does not decide whether a number is an integer. -/
theorem signed_integer_iff {n : Bool} {x : ℚ} : (∃ k : ℤ, (if n then -1 else 1) * x = k) ↔ ∃ k : ℤ, x = k := by
  cases n with
  | false => simp
  | true =>
    constructor
    · rintro ⟨k, hk⟩
      refine ⟨-k, ?_⟩
      rw [Int.cast_neg, ← hk, if_pos rfl, neg_one_mul, neg_neg]
    · rintro ⟨k, rfl⟩
      refine ⟨-k, ?_⟩
      rw [Int.cast_neg, if_pos rfl, neg_one_mul]

/-- The exponent that is too long for an `i64` is told by its sign. -/
theorem exponent_head :
    ((t.exponent.map fun e => e.2.1 ++ e.2.2).getD [0x30]).head? = some 0x2d → t.exponentValue ≤ 0 := by
  unfold NumberText.exponentValue
  cases he : t.exponent with
  | none => exact fun _ => Int.le_refl 0
  | some e =>
    obtain ⟨mark, sign, ds⟩ := e
    obtain ⟨_, hsign, hne, hds⟩ := t.json.exponent _ _ _ he
    intro hhead
    rcases hsign with rfl | rfl | rfl
    · obtain ⟨b, rest, rfl⟩ := List.exists_cons_of_ne_nil hne
      have hdigit := hds.head
      simp only [Option.map_some, List.nil_append, Option.getD_some, List.head?_cons, Option.some.injEq] at hhead
      rw [hhead] at hdigit
      exact absurd hdigit (by decide)
    · simp [signedValue]
    · simp at hhead

theorem exponent_no_head :
    ((t.exponent.map fun e => e.2.1 ++ e.2.2).getD [0x30]).head? ≠ some 0x2d → 0 ≤ t.exponentValue := by
  unfold NumberText.exponentValue
  cases he : t.exponent with
  | none => exact fun _ => Int.le_refl 0
  | some e =>
    obtain ⟨mark, sign, ds⟩ := e
    obtain ⟨_, hsign, _⟩ := t.json.exponent _ _ _ he
    intro hhead
    rcases hsign with rfl | rfl | rfl
    · simp [signedValue]
    · simp at hhead
    · simp [signedValue]

/-- **A token is an integer by its value.** -/
theorem isInteger_iff : numericTokenIsInteger t.text = true ↔ ∃ k : ℤ, t.value = k := by
  have hlen := t.length_lt
  have hcut := t.length_digits
  rw [value_eq, signed_integer_iff, shift_integer_iff t.digits_all, numericTokenIsInteger]
  by_cases hzero : numericTokenIsZero t.text = true
  · rw [if_pos hzero]
    exact iff_of_true rfl (.inr fun b hb =>
      (value_eq_zero_iff t.digits_all).1 (t.isZero_iff.1 hzero) b (List.mem_of_mem_drop hb))
  have hrest : (stripMinus t.text).getD t.text = t.unsigned := by
    rw [strip_minus]
    cases hn : t.negative with
    | true => rfl
    | false =>
      rw [text_eq, hn]
      rfl
  have hnonzero : ¬ ∀ b ∈ t.digits, b = 0x30 := fun h => hzero (t.isZero_iff.2 ((value_eq_zero_iff t.digits_all).2 h))
  rw [if_neg hzero, hrest]
  simp only [splitExponent, split_unsigned, parse_exponent, split_point]
  by_cases hparsed : i64Min ≤ t.exponentValue ∧ t.exponentValue ≤ i64Max
  · rw [if_pos hparsed]
    dsimp only
    rw [← hcut]
    unfold i64Max at *
    have hpoint : t.point = t.integer.length + t.exponentValue := rfl
    rw [← hpoint]
    by_cases hover : 2 ^ 63 - 1 < (t.integer.length : ℤ) ∨ 2 ^ 63 - 1 < t.point
    · rw [if_pos hover, decide_eq_true_eq]
      exact iff_of_true (by omega) (.inl (by omega))
    rw [if_neg hover, if_neg (by omega)]
    by_cases hle : (t.digits.length : ℤ) ≤ t.point
    · rw [if_pos hle]
      exact iff_of_true rfl (.inl hle)
    · rw [if_neg hle, or_iff_right hle, show (max t.point 0).toNat = t.point.toNat by omega, ← digits]
      simp
  · rw [if_neg hparsed]
    unfold i64Min i64Max at hparsed
    by_cases hhead : ((t.exponent.map fun e => e.2.1 ++ e.2.2).getD [0x30]).head? = some 0x2d
    · have hexp := t.exponent_head hhead
      refine iff_of_false (by simpa using hhead) ?_
      rintro (h | h)
      · unfold point at h
        omega
      · rw [show t.point.toNat = 0 by unfold point; omega, List.drop_zero] at h
        exact hnonzero h
    · have hexp := t.exponent_no_head hhead
      refine iff_of_true (by simpa using hhead) (.inl ?_)
      unfold point
      omega

/-- The sign and what follows it. -/
theorem sign_text : ((stripMinus t.text).map (true, ·)).getD (false, t.text) = (t.negative, t.unsigned) := by
  rw [strip_minus]
  cases hn : t.negative with
  | true => rfl
  | false =>
    rw [text_eq, hn]
    rfl

theorem elim_exponent : (t.exponent.map fun e => e.2.1 ++ e.2.2).elim (some 0) parseI64 =
    if i64Min ≤ t.exponentValue ∧ t.exponentValue ≤ i64Max then some t.exponentValue else none := by
  have hparse := t.parse_exponent
  cases he : t.exponent with
  | none =>
    have hzero : t.exponentValue = 0 := by rw [NumberText.exponentValue, he, Option.elim_none]
    rw [hzero]
    rfl
  | some e => rwa [he] at hparse

/-- The numbers `numeric_token_as_i64` follows: no exponent past a thousand, and no point past the nineteenth place. -/
def Followed : Prop := |t.exponentValue| ≤ 1000 ∧ t.point ≤ 19

/-- **What is followed is read exactly.** -/
theorem asI64_iff (n : ℤ) : numericTokenAsI64 t.text = some n ↔ t.Followed ∧ t.value = n ∧ i64Min ≤ n ∧ n ≤ i64Max := by
  have hlen := t.length_lt
  have hcut := t.length_digits
  have hpoint : t.point = t.integer.length + t.exponentValue := rfl
  have hnegative : ∀ x : ℚ, (if t.negative then -1 else 1) * x = if t.negative then -x else x := fun x => by
    cases t.negative <;> simp
  have hdigits : t.integer ++ t.fraction.getD [] = t.digits := rfl
  simp only [numericTokenAsI64, sign_text, split_unsigned, elim_exponent, split_point, hdigits, Option.bind_eq_bind]
  by_cases hparsed : i64Min ≤ t.exponentValue ∧ t.exponentValue ≤ i64Max
  swap
  · rw [if_neg hparsed]
    unfold i64Min i64Max at hparsed
    refine iff_of_false (by simp) fun h => hparsed ?_
    have := abs_le.1 h.1.1
    omega
  rw [if_pos hparsed, Option.bind_some]
  by_cases hexp : t.exponentValue = i64Min ∨ 1000 < |t.exponentValue|
  · rw [if_pos hexp]
    refine iff_of_false (by simp) fun h => ?_
    rcases hexp with hexp | hexp
    · have := abs_le.1 h.1.1
      unfold i64Min at hexp
      omega
    · exact absurd h.1.1 (not_le.2 hexp)
  have hthousand : |t.exponentValue| ≤ 1000 := le_of_not_gt fun h => hexp (.inr h)
  have hbounds := abs_le.1 hthousand
  have hgood : ¬(t.digits = [] ∨ ¬ ∀ b ∈ t.digits, IsDigit b) := not_or.2 ⟨t.digits_ne_nil, not_not_intro t.digits_all⟩
  rw [if_neg hexp, if_neg hgood, ← hpoint]
  by_cases hover : i64Max < t.point
  · rw [if_pos hover]
    unfold i64Max at hover
    exact iff_of_false (by simp) fun h => absurd h.1.2 (by omega)
  rw [if_neg hover]
  have hmax : (max t.point 0).toNat = t.point.toNat := by omega
  rw [hmax]
  by_cases hfraction : t.point < t.digits.length ∧ ∃ b ∈ t.digits.drop t.point.toNat, b ≠ 0x30
  · rw [if_pos hfraction]
    obtain ⟨hlt, b, hb, hne⟩ := hfraction
    refine iff_of_false (by simp) fun h => ?_
    have hinteger : ∃ k : ℤ, t.value = k := ⟨n, h.2.1⟩
    rw [value_eq, signed_integer_iff, shift_integer_iff t.digits_all] at hinteger
    exact hinteger.elim (by omega) fun h => hne (h b hb)
  rw [if_neg hfraction]
  by_cases hmany : 19 < t.point
  · rw [if_pos hmany]
    exact iff_of_false (by simp) fun h => absurd h.1.2 (by omega)
  rw [if_neg hmany]
  -- the digits in front of the point, filled up with zeros
  have hwhole : (t.digits.length : ℤ) ≤ t.point ∨ ∀ b ∈ t.digits.drop t.point.toNat, b = 0x30 := by
    by_contra hnot
    push Not at hnot
    exact hfraction hnot
  generalize hkept : t.digits.take t.point.toNat ++ List.replicate (t.point.toNat - t.digits.length) 0x30 = kept
  have hkeptDigits : AllDigits kept := by
    rw [← hkept]
    refine Decimal.allDigits_append.2 ⟨fun b hb => t.digits_all b (List.mem_of_mem_take hb), fun b hb => ?_⟩
    rw [(List.mem_replicate.1 hb).2]
    decide
  have hkeptLength : kept.length ≤ 19 := by
    rw [← hkept, List.length_append, List.length_take, List.length_replicate]
    omega
  have hintDigits : (if 0 < t.point then t.digits.take (min t.point.toNat t.digits.length) ++
      List.replicate (t.point.toNat - (t.digits.take (min t.point.toNat t.digits.length)).length) 0x30 else []) =
      kept := by
    rw [← hkept]
    split
    · have htake : t.digits.take (min t.point.toNat t.digits.length) = t.digits.take t.point.toNat := by
        rw [List.take_eq_take_iff]
        omega
      rw [htake, List.length_take]
      congr 2
      omega
    · rw [show t.point.toNat = 0 by omega]
      simp
  have hbelow : (value kept : ℤ) ≤ i128Max := by
    have hlt := Nat.lt_of_lt_of_le (Decimal.value_lt hkeptDigits) (Nat.pow_le_pow_right (by decide) hkeptLength)
    unfold i128Max
    omega
  have hvalue : t.value = ((if t.negative then -(value kept : ℤ) else value kept : ℤ) : ℚ) := by
    rw [value_eq, hnegative, shift_eq hwhole t.digits_all, hkept]
    cases t.negative <;> simp
  have hread : (if kept = [] then some 0 else parseI128 kept) = some (value kept : ℤ) := by
    by_cases hnil : kept = []
    · rw [if_pos hnil, hnil]
      rfl
    · rw [if_neg hnil, parseI128, parse_digits hnil hkeptDigits (by decide), if_pos hbelow]
  rw [hintDigits, hvalue, ← apply_ite (Option.bind · _), hread, Option.bind_some, Int.cast_inj]
  generalize (if t.negative then -(value kept : ℤ) else value kept : ℤ) = m
  have hfollowed : t.Followed := ⟨hthousand, not_lt.1 hmany⟩
  simp only [Option.ite_none_right_eq_some, Option.some.injEq]
  constructor
  · rintro ⟨hrange, rfl⟩
    exact ⟨hfollowed, rfl, hrange⟩
  · rintro ⟨_, rfl, hrange⟩
    exact ⟨hrange, rfl⟩

theorem timesTen_eq {most : Int} : ∀ {k : Nat} {n m : Int}, timesTen most k n = some m → m = n * 10 ^ k
  | 0, n, m, h => by
    cases h
    rw [pow_zero, mul_one]
  | k + 1, n, m, h => by
    rw [timesTen, Option.ite_none_right_eq_some] at h
    rw [timesTen_eq h.2, pow_succ]
    ring

/-- The zeros taken off a coefficient are made up for by its scale. -/
theorem trimmedScale_eq {coefficient scale : Int} {m s : Nat} (hpos : 0 ≤ coefficient)
    (h : trimmedScale coefficient scale = some (m, s)) :
    (m : ℚ) / 10 ^ s = coefficient * 10 ^ (-scale) := by
  rw [trimmedScale, Option.ite_none_right_eq_some, Option.some.injEq] at h
  obtain ⟨⟨hscale, _⟩, heq⟩ := h
  have htrim := (NumberAccumulator.trimScale_spec scale.toNat coefficient.toNat).1
  rw [heq] at htrim
  rw [htrim, zpow_neg, div_eq_mul_inv]
  congr 2
  · exact_mod_cast Int.toNat_of_nonneg hpos
  · rw [← zpow_natCast, Int.toNat_of_nonneg hscale]

/-- **A scaled decimal is the token's value.** -/
theorem scaled_value {m : Int} {s : Nat} (h : decimalTokenScaled t.text = some (m, s)) : t.value = m / 10 ^ s := by
  have hdigits : t.integer ++ t.fraction.getD [] = t.digits := rfl
  have hnegative : ∀ x : ℚ, (if t.negative then -1 else 1) * x = if t.negative then -x else x := fun x => by
    cases t.negative <;> simp
  have hscale : t.point - t.digits.length = -(((t.fraction.getD []).length : ℤ) - t.exponentValue) := by
    rw [point, length_digits]
    push_cast
    ring
  simp only [decimalTokenScaled, sign_text, splitExponent, split_unsigned, parse_exponent, split_point, hdigits,
    Option.bind_eq_bind,
    parseI128, parse_digits t.digits_ne_nil t.digits_all (show (-2 ^ 127 : Int) ≤ 0 by decide)] at h
  rw [value_eq, hnegative, hscale]
  generalize hs : ((t.fraction.getD []).length : ℤ) - t.exponentValue = scale at h ⊢
  obtain ⟨e, he, h⟩ := Option.bind_eq_some_iff.1 h
  rw [Option.ite_none_right_eq_some, Option.some.injEq] at he
  obtain ⟨_, rfl⟩ := he
  obtain ⟨mag, hmag, h⟩ := Option.bind_eq_some_iff.1 h
  rw [Option.ite_none_right_eq_some, Option.some.injEq] at hmag
  obtain ⟨_, rfl⟩ := hmag
  rw [hs, Option.ite_none_left_eq_some] at h
  obtain ⟨_, h⟩ := h
  by_cases hzero : (value t.digits : ℤ) = 0
  · rw [if_pos hzero] at h
    cases h
    have hcast : (value t.digits : ℚ) = 0 := by exact_mod_cast hzero
    rw [hcast]
    simp
  rw [if_neg hzero] at h
  by_cases hneg : scale < 0
  · rw [if_pos hneg, Option.ite_none_left_eq_some] at h
    obtain ⟨mag, hmag, h⟩ := Option.bind_eq_some_iff.1 h.2
    cases h
    have hten := timesTen_eq hmag
    have hcast : (value t.digits : ℚ) * 10 ^ (-scale) = mag := by
      rw [hten, show -scale = ((-scale).toNat : ℤ) by omega, zpow_natCast]
      push_cast
      rfl
    rw [hcast]
    cases t.negative <;> simp
  · rw [if_neg hneg] at h
    obtain ⟨⟨mag, left⟩, hmag, h⟩ := Option.bind_eq_some_iff.1 h
    cases h
    have htrim := trimmedScale_eq (Int.natCast_nonneg _) hmag
    rw [Int.cast_natCast] at htrim
    rw [← htrim]
    cases t.negative
    · simp
    · simp [neg_div]

/-- **A coefficient and exponent are the token's value.** -/
theorem coefExp_value {m s : Nat} (h : decimalTokenAsCoefExp t.text = some (m, s)) : t.value = m / 10 ^ s := by
  have hdigits : t.integer ++ t.fraction.getD [] = t.digits := rfl
  have hscale : t.point - t.digits.length = -(((t.fraction.getD []).length : ℤ) - t.exponentValue) := by
    rw [point, length_digits]
    push_cast
    ring
  have hunsigned : t.text.head? ≠ some 0x2d → t.text = t.unsigned ∧ t.negative = false := by
    rw [text_eq]
    cases t.negative with
    | true => exact fun h => absurd rfl h
    | false => exact fun _ => ⟨rfl, rfl⟩
  rw [decimalTokenAsCoefExp, Option.ite_none_left_eq_some] at h
  obtain ⟨htext, hpositive⟩ := hunsigned h.1
  rw [htext] at h
  simp only [splitExponent, split_unsigned, parse_exponent, split_point, hdigits, Option.bind_eq_bind, parseU64,
    parse_digits t.digits_ne_nil t.digits_all (Int.le_refl 0)] at h
  obtain ⟨e, he, h⟩ := Option.bind_eq_some_iff.1 h.2
  rw [Option.ite_none_right_eq_some, Option.some.injEq] at he
  obtain ⟨_, rfl⟩ := he
  obtain ⟨coef, hcoef, h⟩ := Option.bind_eq_some_iff.1 h
  rw [Option.ite_none_right_eq_some, Option.some.injEq] at hcoef
  obtain ⟨_, rfl⟩ := hcoef
  rw [Option.ite_none_left_eq_some] at h
  obtain ⟨_, h⟩ := h
  rw [value_eq, hpositive, hscale, if_neg (by decide), one_mul]
  split at h
  · obtain ⟨coef, hcoef, h⟩ := Option.bind_eq_some_iff.1 h
    cases h
    have hten := timesTen_eq hcoef
    have hcast : ((coef.toNat : ℤ) : ℚ) = coef := by
      rw [Int.toNat_of_nonneg]
      rw [hten]
      positivity
    rw [pow_zero, div_one, ← Int.cast_natCast coef.toNat, hcast, hten,
      show -(((t.fraction.getD []).length : ℤ) - t.exponentValue) =
        ((-(((t.fraction.getD []).length : ℤ) - t.exponentValue)).toNat : ℤ) by omega,
      zpow_natCast]
    push_cast
    rfl
  · have htrim := trimmedScale_eq (Int.natCast_nonneg _) h
    rw [Int.cast_natCast] at htrim
    exact htrim.symm

theorem negative_iff : t.text.head? = some 0x2d ↔ t.negative = true := by
  have hstrip := t.strip_minus
  cases hn : t.negative with
  | true =>
    rw [text_eq, hn]
    simp
  | false =>
    rw [hn, if_neg (by decide)] at hstrip
    refine iff_of_false (fun h => ?_) (by decide)
    cases htext : t.text with
    | nil =>
      rw [htext] at h
      cases h
    | cons b rest =>
      rw [htext] at h hstrip
      rw [stripMinus, if_pos (Option.some.inj h)] at hstrip
      cases hstrip

/-- A token is below zero when it has a sign and a digit that counts. -/
theorem value_neg_iff : t.value < 0 ↔ t.negative = true ∧ value t.digits ≠ 0 := by
  have hpow : (0 : ℚ) < 10 ^ (t.point - t.digits.length) := by positivity
  rw [value_eq]
  cases t.negative with
  | true =>
    simp only [if_true, neg_one_mul, neg_lt_zero, true_and, mul_pos_iff_of_pos_right hpow, Nat.cast_pos,
      Nat.pos_iff_ne_zero]
  | false =>
    refine iff_of_false ?_ (by simp)
    rw [if_neg (by decide), one_mul, not_lt]
    positivity

/-! ### Counts -/

/-- What a number says as a count: nothing where it is negative or no integer. -/
def countOf (v : ℚ) : Option CountBound :=
  if v.den = 1 ∧ 0 ≤ v then some (if v ≤ u32Size - 1 then .fits v.num.toNat else .aboveU32) else none

/-- The field reads a token as the count its value says, whatever object it stands in. -/
def CountExact : Prop := ∀ fields key ptr, get fields key = some (.num t.text) →
  (countField fields key ptr).toOption = (countOf t.value).map some

/-- A number an `i64` holds. -/
def InI64 (v : ℚ) : Prop := ∃ n : ℤ, v = n ∧ i64Min ≤ n ∧ n ≤ i64Max

theorem countOf_int (n : ℤ) : countOf n =
    if n < 0 then none else some (if n < u32Size then .fits n.toNat else .aboveU32) := by
  have hle : (n : ℚ) ≤ u32Size - 1 ↔ n < u32Size := by
    rw [le_sub_iff_add_le]
    exact_mod_cast Int.add_one_le_iff
  by_cases hn : n < 0
  · rw [countOf, if_pos hn, if_neg fun h => absurd h.2 (not_le.2 (by exact_mod_cast hn))]
  · rw [countOf, if_neg hn, if_pos ⟨Rat.den_intCast n, by exact_mod_cast not_lt.1 hn⟩, Rat.num_intCast]
    simp only [hle]

theorem countOf_fraction {v : ℚ} (h : ¬ ∃ k : ℤ, v = k) : countOf v = none :=
  if_neg fun hden => h ⟨v.num, ((Rat.den_eq_one_iff v).1 hden.1).symm⟩

/-- **A count is read exactly where the `i64` reader follows it**, or no `i64` holds it. -/
theorem countExact (h : t.Followed ∨ ¬ InI64 t.value) : t.CountExact := by
  intro fields key ptr hget
  simp only [countField, hget]
  cases hread : numericTokenAsI64 t.text with
  | some n =>
    obtain ⟨_, hvalue, _, _⟩ := (t.asI64_iff n).1 hread
    rw [hvalue, countOf_int]
    dsimp only
    split <;> rfl
  | none =>
    have hout : ¬ InI64 t.value := by
      rintro ⟨n, hvalue, hrange⟩
      have hsome := (t.asI64_iff n).2 ⟨h.resolve_right (not_not_intro ⟨n, hvalue, hrange⟩), hvalue, hrange⟩
      rw [hread] at hsome
      cases hsome
    have hzero : value t.digits ≠ 0 := fun hz => hout ⟨0, by rw [value_eq, hz]; simp, by decide, by decide⟩
    have hnonzero : numericTokenIsZero t.text = false := Bool.eq_false_iff.2 fun h => hzero (t.isZero_iff.1 h)
    dsimp only
    rw [hnonzero]
    by_cases hneg : t.negative = true
    · have hvalue := t.value_neg_iff.2 ⟨hneg, hzero⟩
      rw [if_pos ⟨t.negative_iff.2 hneg, rfl⟩, countOf, if_neg fun h => absurd h.2 (not_le.2 hvalue)]
      rfl
    · have hvalue : 0 ≤ t.value := not_lt.1 fun h => hneg (t.value_neg_iff.1 h).1
      rw [if_neg fun h => hneg (t.negative_iff.1 h.1)]
      by_cases hinteger : numericTokenIsInteger t.text = true
      · obtain ⟨k, hk⟩ := t.isInteger_iff.1 hinteger
        have hpos : 0 ≤ k := by
          rw [hk] at hvalue
          exact_mod_cast hvalue
        have hlarge : i64Max < k := by
          by_contra hle
          exact hout ⟨k, hk, Int.le_trans (by decide) hpos, not_lt.1 hle⟩
        unfold i64Max at hlarge
        rw [if_pos hinteger, hk, countOf_int, if_neg (not_lt.2 hpos), if_neg (by unfold u32Size; omega)]
        rfl
      · rw [if_neg hinteger, countOf_fraction fun h => hinteger (t.isInteger_iff.2 h)]
        rfl

end NumericToken

open NumericToken (InI64)

/-- **The readers are exact on the numbers they follow and on those no `i64` holds, and on no others.**  The count, the
integer test, the `i64` and the two decimal readers all give the value of the token, exactly when it is no integer that
an `i64` holds, or has an exponent of at most a thousand and its point at most nineteen places in. -/
theorem numeric_tokens_exact_iff (t : NumericToken) :
    (t.CountExact ∧ (numericTokenIsInteger t.text = true ↔ ∃ k : ℤ, t.value = k) ∧
      (∀ n : ℤ, numericTokenAsI64 t.text = some n ↔ t.value = n ∧ i64Min ≤ n ∧ n ≤ i64Max) ∧
      (∀ m s, decimalTokenScaled t.text = some (m, s) → t.value = m / 10 ^ s) ∧
      ∀ m s, decimalTokenAsCoefExp t.text = some (m, s) → t.value = m / 10 ^ s) ↔ t.Followed ∨ ¬ InI64 t.value := by
  constructor
  · rintro ⟨_, _, hread, _⟩
    by_cases hin : InI64 t.value
    · obtain ⟨n, hn⟩ := hin
      exact .inl ((t.asI64_iff n).1 ((hread n).2 hn)).1
    · exact .inr hin
  · intro h
    refine ⟨t.countExact h, t.isInteger_iff, fun n => ?_, fun m s => t.scaled_value, fun m s => t.coefExp_value⟩
    rw [t.asI64_iff]
    exact and_iff_right_of_imp fun hn => h.resolve_right (not_not_intro ⟨n, hn⟩)

/-- `0e30`. -/
def zeroToken : NumericToken where
  negative := false
  integer := [0x30]
  fraction := none
  exponent := some (0x65, [], [0x33, 0x30])
  json := by
    refine ⟨⟨⟨by simp, fun b hb => ?_⟩, fun f h => (by cases h), fun mark sign ds h => ?_⟩, .inl rfl⟩
    · rw [List.mem_singleton.1 hb]
      decide
    · cases h
      exact ⟨.inl rfl, .inl rfl, by simp, by simp [AllDigits, IsDigit]⟩
  fits := by simp [NumberText.text]

/-- A count of `0e30` is zero, and is read as one past every `u32`. -/
theorem zero_read_as_huge :
    ¬ ∀ t : NumericToken, t.CountExact ∧ (numericTokenIsInteger t.text = true ↔ ∃ k : ℤ, t.value = k) ∧
    (∀ n : ℤ, numericTokenAsI64 t.text = some n ↔ t.value = n ∧ i64Min ≤ n ∧ n ≤ i64Max) ∧
    (∀ m s, decimalTokenScaled t.text = some (m, s) → t.value = m / 10 ^ s) ∧
    ∀ m s, decimalTokenAsCoefExp t.text = some (m, s) → t.value = m / 10 ^ s := by
  intro h
  have hcount := (h zeroToken).1 [(['k'], .num zeroToken.text)] ['k'] [] rfl
  have hread : countField [(['k'], .num zeroToken.text)] ['k'] [] = .ok (some .aboveU32) := by
    have hinteger : numericTokenIsInteger zeroToken.text = true := by decide +kernel
    have hnone : numericTokenAsI64 zeroToken.text = none := by decide +kernel
    have hsign : ¬(zeroToken.text.head? = some 0x2d ∧ numericTokenIsZero zeroToken.text = false) := by decide +kernel
    have hget : get [(['k'], .num zeroToken.text)] ['k'] = some (.num zeroToken.text) := rfl
    simp only [countField, hget, hnone, if_neg hsign, hinteger, if_true]
  have hvalue : zeroToken.value = (0 : ℤ) := by
    simp [NumberText.value, zeroToken, Decimal.value, digitValue]
  rw [hread, hvalue, NumericToken.countOf_int] at hcount
  exact absurd hcount (by decide)

/-- An error of a count names the field. -/
theorem countField_error {fields : List (Text × Ast)} {key ptr : Text} {err : FrontendError}
    (h : countField fields key ptr = .error err) :
    err.code = .malformed ∧ err.pointer = some (childPtr ptr key) ∧ err.keyword = some key := by
  unfold countField at h
  split at h
  · cases h
  · split at h
    · split at h <;> cases h
      exact ⟨rfl, rfl, rfl⟩
    · split_ifs at h <;> cases h
      · exact ⟨rfl, rfl, rfl⟩
      · exact ⟨rfl, rfl, rfl⟩
  · cases h
    exact ⟨rfl, rfl, rfl⟩


end Frontend
end MaskForge
