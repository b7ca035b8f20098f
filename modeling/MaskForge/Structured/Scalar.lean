import MaskForge.Structured.Plan
/-!
# Scalar — literals and numbers, byte by byte

The scalar phases of an unconstrained value, and the accumulator of a number with constraints: it keeps the first twenty
significant digits, the value modulo the divisor, and the decimal exponent, which is all the checks read.
-/
namespace MaskForge

/-- `WS`. -/
def ws : List Byte := [0x20, 0x09, 0x0a, 0x0d]

def isWs (b : Byte) : Bool := ws.contains b

def isDigit (b : Byte) : Bool := decide (0x30 ≤ b ∧ b ≤ 0x39)

/-! ## Phases -/

inductive NumberPhase where
  | intFirst
  | intRest (leadingZero : Bool)
  | fracFirst
  | fracRest
  | expSign
  | expFirst
  | expRest
  deriving DecidableEq, Repr

inductive ScalarPhase where
  | beforeValue
  | trueAt (matched : Nat)
  | falseAt (matched : Nat)
  | nullAt (matched : Nat)
  | number (phase : NumberPhase)
  | literalDone
  deriving DecidableEq, Repr

/-- One step of a scalar; `done` leaves the byte to the parent. -/
inductive ScalarStep where
  | cont (next : ScalarPhase)
  | startString
  | startArray
  | startObject
  | done
  | invalid
  deriving DecidableEq, Repr

/-- The bytes of `true`, `false` and `null`. -/
def literalTrue : List Byte := [0x74, 0x72, 0x75, 0x65]
def literalFalse : List Byte := [0x66, 0x61, 0x6c, 0x73, 0x65]
def literalNull : List Byte := [0x6e, 0x75, 0x6c, 0x6c]

def stepLiteral (word : List Byte) (phase : Nat → ScalarPhase) (matched : Nat) (byte : Byte) : ScalarStep :=
  if word[matched]? ≠ some byte then .invalid
  else if matched + 1 = word.length then .cont .literalDone
  else .cont (phase (matched + 1))

def stepNumber : NumberPhase → Byte → ScalarStep
  | .intFirst, byte =>
    if byte = 0x30 then .cont (.number (.intRest true))
    else if isDigit byte then .cont (.number (.intRest false))
    else .invalid
  | .intRest leadingZero, byte =>
    if isDigit byte ∧ leadingZero = false then .cont (.number (.intRest leadingZero))
    else if byte = 0x2e then .cont (.number .fracFirst)
    else if byte = 0x65 ∨ byte = 0x45 then .cont (.number .expSign)
    else .done
  | .fracFirst, byte => if isDigit byte then .cont (.number .fracRest) else .invalid
  | .fracRest, byte =>
    if isDigit byte then .cont (.number .fracRest)
    else if byte = 0x65 ∨ byte = 0x45 then .cont (.number .expSign)
    else .done
  | .expSign, byte =>
    if byte = 0x2b ∨ byte = 0x2d then .cont (.number .expFirst)
    else if isDigit byte then .cont (.number .expRest)
    else .invalid
  | .expFirst, byte => if isDigit byte then .cont (.number .expRest) else .invalid
  | .expRest, byte => if isDigit byte then .cont (.number .expRest) else .done

def stepScalar : ScalarPhase → Byte → ScalarStep
  | .beforeValue, byte =>
    if byte = 0x22 then .startString
    else if byte = 0x5b then .startArray
    else if byte = 0x7b then .startObject
    else if byte = 0x74 then .cont (.trueAt 1)
    else if byte = 0x66 then .cont (.falseAt 1)
    else if byte = 0x6e then .cont (.nullAt 1)
    else if byte = 0x2d then .cont (.number .intFirst)
    else if byte = 0x30 then .cont (.number (.intRest true))
    else if isDigit byte then .cont (.number (.intRest false))
    else .invalid
  | .trueAt matched, byte => stepLiteral literalTrue .trueAt matched byte
  | .falseAt matched, byte => stepLiteral literalFalse .falseAt matched byte
  | .nullAt matched, byte => stepLiteral literalNull .nullAt matched byte
  | .number phase, byte => stepNumber phase byte
  | .literalDone, _ => .done

def scalarIsComplete : ScalarPhase → Bool
  | .literalDone | .number (.intRest _) | .number .fracRest | .number .expRest => true
  | _ => false

theorem isWs_cases {b : Byte} (h : isWs b = true) : b = 0x20 ∨ b = 0x09 ∨ b = 0x0a ∨ b = 0x0d := by
  unfold isWs ws at h
  simpa using h

/-- **Whitespace ends a complete scalar.** -/
theorem stepScalar_ws {phase : ScalarPhase} {b : Byte} (hc : scalarIsComplete phase = true) (hb : isWs b = true) :
    stepScalar phase b = .done := by
  have hnot : isDigit b = false ∧ b ≠ 0x2e ∧ b ≠ 0x65 ∧ b ≠ 0x45 := by
    rcases isWs_cases hb with rfl | rfl | rfl | rfl <;> decide
  obtain ⟨hd, h1, h2, h3⟩ := hnot
  cases phase with
  | literalDone => rfl
  | number p => cases p <;> simp_all [stepScalar, stepNumber, scalarIsComplete]
  | beforeValue | trueAt _ | falseAt _ | nullAt _ => cases hc

/-- Whitespace inside a scalar is refused. -/
theorem stepScalar_incomplete {phase : ScalarPhase} {b : Byte} (hbefore : phase ≠ .beforeValue)
    (hc : ¬scalarIsComplete phase = true) (hb : isWs b = true) : stepScalar phase b = .invalid := by
  have hnot : isDigit b = false ∧ b ≠ 0x30 ∧ b ≠ 0x2b ∧ b ≠ 0x2d := by
    rcases isWs_cases hb with rfl | rfl | rfl | rfl <;> decide
  obtain ⟨hd, h0, h1, h2⟩ := hnot
  have hword : ∀ (word : List Byte) (f : Nat → ScalarPhase) (n : Nat), b ∉ word →
    stepLiteral word f n b = .invalid := by
    intro word f n hmem
    unfold stepLiteral
    rw [if_pos]
    exact fun h => hmem (List.mem_of_getElem? h)
  cases phase with
  | beforeValue => exact absurd rfl hbefore
  | literalDone => exact absurd rfl hc
  | number p => cases p <;> simp_all [stepScalar, stepNumber, scalarIsComplete]
  | trueAt n => exact hword _ _ n (by rcases isWs_cases hb with rfl | rfl | rfl | rfl <;> decide)
  | falseAt n => exact hword _ _ n (by rcases isWs_cases hb with rfl | rfl | rfl | rfl <;> decide)
  | nullAt n => exact hword _ _ n (by rcases isWs_cases hb with rfl | rfl | rfl | rfl <;> decide)

/-! ## Numbers with constraints -/

/-- `u32::MAX`. -/
def u32Max : Nat := u32Size - 1

def satAdd32 (a b : Nat) : Nat := min (a + b) u32Max

/-- `saturating_*` on `i64`. -/
def sat64 (x : Int) : Int := max (-(2 ^ 63)) (min x (2 ^ 63 - 1))

structure NumberAccumulator where
  negative : Bool
  fraction : Bool
  exponent : Bool
  exponentNegative : Bool
  exponentValue : Nat
  fractionDigits : Nat
  coreDigits : Nat
  leading : List Nat
  leadingLen : Nat
  pendingZeros : Nat
  coreMod : Nat
  bytes : Nat
  started : Bool
  finished : Bool
  deriving DecidableEq, Repr

/-- The square-and-multiply loop of `modular_power_of_ten`. -/
def modularPowerLoop (modulus : Nat) (result base exponent : Nat) : Nat :=
  if h : exponent = 0 then result
  else
    let result := if exponent % 2 = 1 then result * base % modulus else result
    modularPowerLoop modulus result (base * base % modulus) (exponent / 2)
  termination_by exponent
  decreasing_by omega

def modularPowerOfTen (exponent modulus : Nat) : Nat := modularPowerLoop modulus (1 % modulus) (10 % modulus) exponent

namespace NumberAccumulator

def new : NumberAccumulator :=
  ⟨false, false, false, false, 0, 0, 0, List.replicate 20 0, 0, 0, 0, 0, false, false⟩

def flushPendingZeros (a : NumberAccumulator) (modulus : Nat) : NumberAccumulator :=
  { a with
    leadingLen := a.leadingLen + min (a.leading.length - a.leadingLen) a.pendingZeros
    coreDigits := satAdd32 a.coreDigits a.pendingZeros
    coreMod := if 1 < modulus then a.coreMod * modularPowerOfTen a.pendingZeros modulus % modulus else a.coreMod }

def pushCoreDigit (a : NumberAccumulator) (digit modulus : Nat) : NumberAccumulator :=
  { a with
    leading := if a.leadingLen < a.leading.length then a.leading.set a.leadingLen digit else a.leading
    leadingLen := if a.leadingLen < a.leading.length then a.leadingLen + 1 else a.leadingLen
    coreDigits := satAdd32 a.coreDigits 1
    coreMod := if 1 < modulus then (a.coreMod * 10 + digit) % modulus else a.coreMod }

/-- A digit of the integer or fraction part. -/
def pushDigit (a : NumberAccumulator) (digit modulus : Nat) : NumberAccumulator :=
  let a := if a.fraction then { a with fractionDigits := satAdd32 a.fractionDigits 1 } else a
  if digit = 0 then
    if 0 < a.coreDigits then { a with pendingZeros := satAdd32 a.pendingZeros 1 } else a
  else
    let flushed := a.flushPendingZeros modulus
    let a := { flushed with pendingZeros := 0 }
    a.pushCoreDigit digit modulus

def push (a : NumberAccumulator) (byte : Byte) (modulus : Nat) : NumberAccumulator :=
  if isWs byte then (if a.started then { a with finished := true } else a)
  else
    let a := { a with started := true, bytes := satAdd32 a.bytes 1 }
    if a.finished then a
    else if byte = 0x2d ∧ a.exponent = false ∧ a.coreDigits = 0 ∧ a.fraction = false then { a with negative := true }
    else if byte = 0x2d ∧ a.exponent = true then { a with exponentNegative := true }
    else if byte = 0x2b ∧ a.exponent = true then a
    else if byte = 0x2e then { a with fraction := true }
    else if byte = 0x65 ∨ byte = 0x45 then { a with exponent := true }
    else if isDigit byte then
      if a.exponent then
        { a with exponentValue := min (a.exponentValue * 10 + (byte.toNat - 0x30)) 1000000000 }
      else a.pushDigit (byte.toNat - 0x30) modulus
    else a

def signedExponent (a : NumberAccumulator) : Int :=
  if a.exponentNegative then -(a.exponentValue : Int) else a.exponentValue

/-- The power of ten the significant digits are scaled by. -/
def shift (a : NumberAccumulator) : Int :=
  sat64 (sat64 (a.signedExponent - a.fractionDigits) + a.pendingZeros)

end NumberAccumulator

def numberIsInteger (value : NumberAccumulator) : Bool := decide (value.coreDigits = 0 ∨ 0 ≤ value.shift)

def numberIsMultiple (value : NumberAccumulator) (modulus scale : Nat) : Bool :=
  if value.coreDigits = 0 then true
  else if sat64 (value.shift + scale) < 0 then false
  else if modulus = 1 then true
  else decide (value.coreMod * modularPowerOfTen (sat64 (value.shift + scale)).toNat modulus % modulus = 0)

/-- Trailing zeros of a bound are taken off its scale. -/
def trimScale : Nat → Nat → Nat × Nat
  | bound, 0 => (bound, 0)
  | bound, scale + 1 => if bound % 10 = 0 then trimScale (bound / 10) scale else (bound, scale + 1)

/-- The decimal digits, most significant first; none for zero. -/
def u128DecimalDigits (value : Nat) : List Nat := (Nat.digits 10 value).reverse

/-- The first difference of two digit strings, missing digits being zero. -/
def compareDigits (left right : List Nat) : Nat → Nat → Ordering
  | 0, _ => .eq
  | n + 1, index =>
    match compare (left[index]?.getD 0) (right[index]?.getD 0) with
    | .eq => compareDigits left right n (index + 1)
    | ordering => ordering

def compareNumberMagnitudeToBound (value : NumberAccumulator) (bound scale : Nat) : Ordering :=
  if bound = 0 then .gt
  else
    let trimmed := trimScale bound scale
    let digits := u128DecimalDigits trimmed.1
    let valueScientific := sat64 (sat64 (value.coreDigits + value.shift) - 1)
    let boundScientific := sat64 (sat64 (digits.length - trimmed.2) - 1)
    match compare valueScientific boundScientific with
    | .eq =>
      let compareLen := max value.leadingLen digits.length
      match compareDigits value.leading digits compareLen 0 with
      | .eq => if compareLen < value.coreDigits then .gt else .eq
      | ordering => ordering
    | ordering => ordering

def compareNumberToBound (value : NumberAccumulator) (bound : Int) (scale : Nat) : Ordering :=
  if value.coreDigits = 0 then compare 0 bound
  else if value.negative ≠ decide (bound < 0) then (if value.negative then .lt else .gt)
  else
    let magnitude := compareNumberMagnitudeToBound value bound.natAbs scale
    if value.negative then magnitude.swap else magnitude

def numberAccepts (value : NumberAccumulator) (plan : NumberPlan) : Bool :=
  (!plan.integerOnly || numberIsInteger value) &&
  plan.multipleOf.all (fun m => numberIsMultiple value m.1 m.2) &&
  plan.minimum.all (fun m => match compareNumberToBound value m.1 m.2.1 with
    | .lt => false
    | .eq => !m.2.2
    | .gt => true) &&
  plan.maximum.all (fun m => match compareNumberToBound value m.1 m.2.1 with
    | .gt => false
    | .eq => !m.2.2
    | .lt => true)

def numberPrefixSignViable (value : NumberAccumulator) (plan : NumberPlan) : Bool :=
  if value.negative then plan.minimum.all (fun m => decide (m.1 < 0 ∨ m.1 = 0 ∧ m.2.2 = false))
  else plan.maximum.all (fun m => decide (0 ≤ m.1))

/-- **Whitespace leaves what the checks read alone.** -/
theorem numberAccepts_push_ws (a : NumberAccumulator) (plan : NumberPlan) (modulus : Nat) {b : Byte}
    (hb : isWs b = true) : numberAccepts (a.push b modulus) plan = numberAccepts a plan ∧
      numberPrefixSignViable (a.push b modulus) plan = numberPrefixSignViable a plan := by
  unfold NumberAccumulator.push
  rw [if_pos hb]
  cases a.started <;> exact ⟨rfl, rfl⟩

end MaskForge
