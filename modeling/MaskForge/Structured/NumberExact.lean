import MaskForge.Structured.Scalar
import MaskForge.Structured.NumberForm
import MaskForge.Lib.DigitFraction
/-!
# NumberExact — what a number with constraints is compared by

The accumulator is exact up to two cuts: of the significant digits it keeps twenty and a count, and it stops an
exponent at ten to the ninth.  `NumberText.seen` is the number with those cuts made, and the checks decide a
plan on it exactly.
-/
namespace MaskForge

open Decimal (AllDigits IsDigit digitValue)
open DigitFraction (frac Digits)
open NumberForm (NumberText)

/-- The number of a digit string, most significant first. -/
def ofDigitsBig (l : List Nat) : Nat := Nat.ofDigits 10 l.reverse

theorem ofDigitsBig_snoc (l : List Nat) (d : Nat) : ofDigitsBig (l ++ [d]) = ofDigitsBig l * 10 + d := by
  rw [ofDigitsBig, List.reverse_append, List.reverse_singleton, List.singleton_append, Nat.ofDigits_cons, ofDigitsBig]
  ring

theorem ofDigitsBig_zeros (l : List Nat) (k : Nat) :
    ofDigitsBig (l ++ List.replicate k 0) = ofDigitsBig l * 10 ^ k := by
  induction k with
  | zero => simp
  | succ k ih =>
    rw [List.replicate_succ', ← List.append_assoc, ofDigitsBig_snoc, ih, pow_succ]
    ring

theorem ofDigitsBig_frac (l : List Nat) : (ofDigitsBig l : ℚ) = frac l * 10 ^ l.length := by
  have h := DigitFraction.frac_digits_reverse l.reverse
  rw [List.reverse_reverse, List.length_reverse] at h
  exact h.symm

/-! ## The square-and-multiply loop -/

theorem modularPowerLoop_spec (modulus : Nat) : ∀ (exponent result base : Nat), result % modulus = result →
    modularPowerLoop modulus result base exponent = result * base ^ exponent % modulus := by
  intro exponent
  induction exponent using Nat.strong_induction_on with
  | _ exponent ih =>
    intro result base hresult
    rw [modularPowerLoop]
    split
    · rename_i hzero
      rw [hzero, pow_zero, Nat.mul_one, hresult]
    · rename_i hne
      have hhalf := Nat.div_add_mod exponent 2
      by_cases hodd : exponent % 2 = 1
      · have hpow : base ^ exponent = base * (base * base) ^ (exponent / 2) := by
          conv_lhs => rw [← hhalf, hodd, pow_add, pow_mul, pow_one, pow_two]
          ring
        simp only [hodd, if_true]
        rw [ih (exponent / 2) (by omega) _ _ (Nat.mod_mod _ _), hpow, Nat.mul_mod, Nat.mod_mod, ← Nat.pow_mod,
          ← Nat.mul_mod, Nat.mul_assoc]
      · have heven : exponent % 2 = 0 := by omega
        have hpow : base ^ exponent = (base * base) ^ (exponent / 2) := by
          conv_lhs => rw [← hhalf, heven, Nat.add_zero, pow_mul, pow_two]
        simp only [heven, Nat.zero_ne_one, if_false]
        rw [ih (exponent / 2) (by omega) _ _ hresult, hpow, Nat.mul_mod, ← Nat.pow_mod, ← Nat.mul_mod]

theorem modularPowerOfTen_eq (exponent modulus : Nat) :
    modularPowerOfTen exponent modulus = 10 ^ exponent % modulus := by
  rw [modularPowerOfTen, modularPowerLoop_spec modulus exponent _ _ (Nat.mod_mod _ _), Nat.mul_mod, Nat.mod_mod,
    ← Nat.pow_mod, ← Nat.mul_mod, Nat.one_mul]

/-! ## What the accumulator keeps -/

/-- Digits cut at the zeros in front and behind. -/
structure Splits (digits core : List Nat) (zeros : Nat) : Prop where
  split : digits.dropWhile (fun d => decide (d = 0)) = core ++ List.replicate zeros 0
  none : core = [] → zeros = 0
  last : ∀ d, core.getLast? = some d → d ≠ 0

theorem Splits.length_le {digits core : List Nat} {zeros : Nat} (h : Splits digits core zeros) :
    core.length + zeros ≤ digits.length := by
  have hle := (List.dropWhile_sublist (fun d => decide (d = 0)) (l := digits)).length_le
  rw [h.split, List.length_append, List.length_replicate] at hle
  exact hle

theorem Splits.empty : Splits [] [] 0 := ⟨rfl, fun _ => rfl, fun d h => by cases h⟩

theorem dropWhile_snoc (digits : List Nat) (d : Nat) : (digits ++ [d]).dropWhile (fun d => decide (d = 0)) =
    if digits.dropWhile (fun d => decide (d = 0)) = [] then (if d = 0 then [] else [d])
    else digits.dropWhile (fun d => decide (d = 0)) ++ [d] := by
  rw [List.dropWhile_append]
  by_cases h : digits.dropWhile (fun d => decide (d = 0)) = []
  · rw [h, if_pos rfl]
    by_cases hd : d = 0 <;> simp [hd]
  · rw [if_neg h, if_neg]
    rw [List.isEmpty_iff]
    exact h

/-- A zero is put off. -/
theorem Splits.zero {digits core : List Nat} {zeros : Nat} (h : Splits digits core zeros) :
    Splits (digits ++ [0]) core (if core = [] then 0 else zeros + 1) := by
  refine ⟨?_, ?_, h.last⟩
  · rw [dropWhile_snoc, h.split]
    by_cases hcore : core = []
    · rw [hcore, h.none hcore]
      simp
    · rw [if_neg (by simp [hcore]), if_neg hcore, List.replicate_succ', List.append_assoc]
  · intro hcore
    rw [if_pos hcore]

/-- Another digit takes the zeros in. -/
theorem Splits.digit {digits core : List Nat} {zeros d : Nat} (h : Splits digits core zeros) (hd : d ≠ 0) :
    Splits (digits ++ [d]) (core ++ List.replicate zeros 0 ++ [d]) 0 := by
  refine ⟨?_, fun _ => rfl, ?_⟩
  · rw [dropWhile_snoc, h.split]
    by_cases hcore : core ++ List.replicate zeros 0 = []
    · rw [if_pos hcore, if_neg hd, hcore]
      simp
    · rw [if_neg hcore]
      simp
  · intro e he
    rw [List.getLast?_append, List.getLast?_singleton] at he
    obtain rfl : d = e := by simpa using he
    exact hd

namespace NumberAccumulator

/-- **The accumulator's summary of the digits read**: those between the zeros, the first twenty of them, the zeros put
off behind them, and the residue. -/
structure Holds (a : NumberAccumulator) (modulus : Nat) (core : List Nat) (zeros : Nat) : Prop where
  coreDigits : a.coreDigits = core.length
  pendingZeros : a.pendingZeros = zeros
  leadingLen : a.leadingLen = min 20 core.length
  room : a.leading.length = 20
  leading : ∀ i, a.leading[i]?.getD 0 = if i < 20 then core[i]?.getD 0 else 0
  coreMod : 1 < modulus → a.coreMod = ofDigitsBig core % modulus

theorem getD_append_zeros (core : List Nat) (k i : Nat) :
    (core ++ List.replicate k 0)[i]?.getD 0 = core[i]?.getD 0 := by
  rw [List.getElem?_append]
  split
  · rfl
  · rename_i h
    rw [List.getElem?_eq_none (l := core) (by omega), List.getElem?_replicate]
    split <;> rfl

theorem Holds.flush {a : NumberAccumulator} {modulus : Nat} {core : List Nat} {zeros : Nat}
    (h : Holds a modulus core zeros) (hroom : core.length + zeros ≤ u32Max) :
    Holds { a.flushPendingZeros modulus with pendingZeros := 0 } modulus (core ++ List.replicate zeros 0) 0 := by
  refine ⟨?_, rfl, ?_, h.room, fun i => ?_, fun hm => ?_⟩
  · simp only [flushPendingZeros, satAdd32, h.coreDigits, h.pendingZeros, List.length_append, List.length_replicate]
    omega
  · simp only [flushPendingZeros, h.leadingLen, h.pendingZeros, h.room, List.length_append, List.length_replicate]
    omega
  · rw [getD_append_zeros]
    exact h.leading i
  · simp only [flushPendingZeros, if_pos hm, h.coreMod hm, h.pendingZeros]
    rw [modularPowerOfTen_eq, ofDigitsBig_zeros, ← Nat.mul_mod]

theorem Holds.digit {a : NumberAccumulator} {modulus d : Nat} {core : List Nat} (h : Holds a modulus core 0)
    (hroom : core.length + 1 ≤ u32Max) : Holds (a.pushCoreDigit d modulus) modulus (core ++ [d]) 0 := by
  refine ⟨?_, h.pendingZeros, ?_, ?_, fun i => ?_, fun hm => ?_⟩
  · simp only [pushCoreDigit, satAdd32, h.coreDigits, List.length_append, List.length_singleton]
    omega
  · simp only [pushCoreDigit, h.leadingLen, h.room, List.length_append, List.length_singleton]
    split <;> omega
  · simp only [pushCoreDigit]
    split
    · rw [List.length_set]
      exact h.room
    · exact h.room
  · have hold := h.leading i
    simp only [pushCoreDigit, h.leadingLen, h.room]
    by_cases hlt : core.length < 20
    · have hmin : min 20 core.length = core.length := by omega
      rw [hmin, if_pos hlt, List.getElem?_set, h.room]
      by_cases hi : core.length = i
      · subst hi
        simp [hlt]
      · rw [if_neg hi, hold]
        split
        · rw [List.getElem?_append]
          split
          · rfl
          · rw [List.getElem?_eq_none (l := core) (by omega), List.getElem?_eq_none]
            simp only [List.length_singleton]
            omega
        · rfl
    · rw [if_neg (by omega), hold]
      split
      · rw [List.getElem?_append_left (by omega)]
      · rfl
  · simp only [pushCoreDigit, if_pos hm, h.coreMod hm]
    rw [ofDigitsBig_snoc, Nat.add_mod, Nat.mul_mod, Nat.mod_mod, ← Nat.mul_mod, ← Nat.add_mod]

/-- The fields a digit in front of the exponent does not touch. -/
theorem pushDigit_frame (a : NumberAccumulator) (d modulus : Nat) :
    (a.pushDigit d modulus).negative = a.negative ∧ (a.pushDigit d modulus).fraction = a.fraction ∧
    (a.pushDigit d modulus).exponent = a.exponent ∧ (a.pushDigit d modulus).exponentNegative = a.exponentNegative ∧
    (a.pushDigit d modulus).exponentValue = a.exponentValue ∧ (a.pushDigit d modulus).finished = a.finished ∧
    (a.pushDigit d modulus).fractionDigits =
      if a.fraction then satAdd32 a.fractionDigits 1 else a.fractionDigits := by
  unfold pushDigit
  by_cases hf : a.fraction = true <;> by_cases hd : d = 0 <;> by_cases hc : 0 < a.coreDigits <;>
    simp [hf, hd, hc, flushPendingZeros, pushCoreDigit]

/-- **One more digit.** -/
theorem pushDigit_holds {a : NumberAccumulator} {modulus d : Nat} {digits core : List Nat} {zeros : Nat}
    (h : Holds a modulus core zeros) (hs : Splits digits core zeros) (hroom : digits.length + 1 ≤ u32Max) :
    ∃ core' zeros', Splits (digits ++ [d]) core' zeros' ∧ Holds (a.pushDigit d modulus) modulus core' zeros' := by
  have hle := hs.length_le
  have hfrac : Holds (if a.fraction then { a with fractionDigits := satAdd32 a.fractionDigits 1 } else a)
      modulus core zeros := by
    split
    · exact ⟨h.coreDigits, h.pendingZeros, h.leadingLen, h.room, h.leading, h.coreMod⟩
    · exact h
  unfold pushDigit
  generalize (if a.fraction then { a with fractionDigits := satAdd32 a.fractionDigits 1 } else a) = b at hfrac ⊢
  simp only
  split
  · rename_i hd
    subst hd
    refine ⟨core, _, hs.zero, ?_⟩
    by_cases hcore : core = []
    · have hz := hs.none hcore
      rw [if_pos hcore, if_neg (by rw [hfrac.coreDigits, hcore]; exact Nat.lt_irrefl 0)]
      subst hcore hz
      exact hfrac
    · rw [if_neg hcore, if_pos (by rw [hfrac.coreDigits]; exact List.length_pos_of_ne_nil hcore)]
      refine ⟨hfrac.coreDigits, ?_, hfrac.leadingLen, hfrac.room, hfrac.leading, hfrac.coreMod⟩
      simp only [hfrac.pendingZeros, satAdd32]
      omega
  · rename_i hd
    refine ⟨_, 0, hs.digit hd, ?_⟩
    refine (hfrac.flush (by omega)).digit ?_
    rw [List.length_append, List.length_replicate]
    omega

/-- Reading the part in front of the exponent: the digits so far, of which `places` are behind the point. -/
structure Mantissa (a : NumberAccumulator) (modulus : Nat) (negative fraction : Bool) (digits : List Nat)
    (places : Nat) :
    Prop where
  negative : a.negative = negative
  fraction : a.fraction = fraction
  exponent : a.exponent = false ∧ a.exponentNegative = false ∧ a.exponentValue = 0
  finished : a.finished = false
  places : a.fractionDigits = places
  digits : ∃ core zeros, Splits digits core zeros ∧ Holds a modulus core zeros

theorem mantissa_new (modulus : Nat) : Mantissa new modulus false false [] 0 := by
  refine ⟨rfl, rfl, ⟨rfl, rfl, rfl⟩, rfl, rfl, [], 0, .empty, rfl, rfl, rfl, rfl, fun i => ?_, fun _ => ?_⟩
  · simp only [new, List.getElem?_replicate, List.getElem?_nil]
    split <;> rfl
  · exact (Nat.zero_mod _).symm

theorem isDigit_eq {b : Byte} (h : IsDigit b) : isDigit b = true := by
  rw [isDigit, decide_eq_true_iff]
  exact h

theorem isDigit_not_ws {b : Byte} (h : IsDigit b) : isWs b = false := by
  rw [Bool.eq_false_iff]
  intro hw
  rcases isWs_cases hw with rfl | rfl | rfl | rfl <;> exact absurd h (by decide)

theorem isDigit_ne {b c : Byte} (h : IsDigit b) (hc : ¬ IsDigit c) : b ≠ c := by
  rintro rfl
  exact hc h

/-- A digit in front of the exponent. -/
theorem push_digit {a : NumberAccumulator} {b : Byte} (hb : IsDigit b) (hf : a.finished = false)
    (he : a.exponent = false) (modulus : Nat) :
    a.push b modulus = NumberAccumulator.pushDigit { a with started := true, bytes := satAdd32 a.bytes 1 }
    (digitValue b) modulus := by
  unfold push
  simp [isDigit_not_ws hb, hf, he, isDigit_ne hb (c := 0x2d) (by decide), isDigit_ne hb (c := 0x2e) (by decide),
    isDigit_ne hb (c := 0x65) (by decide), isDigit_ne hb (c := 0x45) (by decide), isDigit_eq hb, digitValue]

theorem Mantissa.digit {a : NumberAccumulator} {modulus places : Nat} {negative fraction : Bool} {digits : List Nat}
    (h : Mantissa a modulus negative fraction digits places) {b : Byte} (hb : IsDigit b)
    (hroom : digits.length + 1 ≤ u32Max) (hplaces : places ≤ digits.length) :
    Mantissa (a.push b modulus) modulus negative fraction (digits ++ [digitValue b])
      (if fraction then places + 1 else places) := by
  rw [push_digit hb h.finished h.exponent.1]
  obtain ⟨core, zeros, hs, hh⟩ := h.digits
  have hh' : Holds { a with started := true, bytes := satAdd32 a.bytes 1 } modulus core zeros :=
    ⟨hh.coreDigits, hh.pendingZeros, hh.leadingLen, hh.room, hh.leading, hh.coreMod⟩
  obtain ⟨h1, h2, h3, h4, h5, h6, h7⟩ :=
    pushDigit_frame { a with started := true, bytes := satAdd32 a.bytes 1 } (digitValue b) modulus
  refine ⟨h1.trans h.negative, h2.trans h.fraction, ⟨h3.trans h.exponent.1, h4.trans h.exponent.2.1,
    h5.trans h.exponent.2.2⟩, h6.trans h.finished, ?_, pushDigit_holds hh' hs hroom⟩
  rw [h7]
  simp only [h.fraction, h.places, satAdd32]
  split
  · omega
  · rfl

theorem Mantissa.digits_foldl {modulus : Nat} {negative fraction : Bool} : ∀ (bs : List Byte) (a : NumberAccumulator)
    (digits : List Nat) (places : Nat), Mantissa a modulus negative fraction digits places → AllDigits bs →
    digits.length + bs.length ≤ u32Max → places ≤ digits.length →
      Mantissa (bs.foldl (fun a b => a.push b modulus) a) modulus negative fraction (digits ++ bs.map digitValue)
        (if fraction then places + bs.length else places)
  | [], a, digits, places, h, _, _, _ => by simpa using h
  | b :: bs, a, digits, places, h, hbs, hroom, hplaces => by
    rw [List.length_cons] at hroom
    have hstep := h.digit hbs.head (by omega) hplaces
    have hrest := digits_foldl bs _ _ _ hstep hbs.tail
      (by rw [List.length_append, List.length_singleton]; omega)
      (by rw [List.length_append, List.length_singleton]; split <;> omega)
    rw [List.foldl_cons, List.map_cons, List.length_cons]
    rw [List.append_assoc, List.singleton_append] at hrest
    cases fraction with
    | false => exact hrest
    | true =>
      rw [if_pos rfl, if_pos rfl] at hrest
      rw [if_pos rfl, Nat.add_comm bs.length 1, ← Nat.add_assoc]
      exact hrest

/-- The minus sign in front. -/
theorem Mantissa.minus {modulus : Nat} (h : Mantissa new modulus false false [] 0) :
    Mantissa (new.push 0x2d modulus) modulus true false [] 0 := by
  obtain ⟨core, zeros, hs, hh⟩ := h.digits
  exact ⟨rfl, rfl, ⟨rfl, rfl, rfl⟩, rfl, rfl, core, zeros, hs, hh.coreDigits, hh.pendingZeros, hh.leadingLen, hh.room,
    hh.leading, hh.coreMod⟩

theorem Mantissa.point {a : NumberAccumulator} {modulus places : Nat} {negative fraction : Bool} {digits : List Nat}
    (h : Mantissa a modulus negative fraction digits places) :
    Mantissa (a.push 0x2e modulus) modulus negative true digits places := by
  have hpush : a.push 0x2e modulus = { a with started := true, bytes := satAdd32 a.bytes 1, fraction := true } := by
    unfold push
    simp [h.finished, isWs, ws]
  obtain ⟨core, zeros, hs, hh⟩ := h.digits
  rw [hpush]
  exact ⟨h.negative, rfl, h.exponent, h.finished, h.places, core, zeros, hs, hh.coreDigits, hh.pendingZeros,
    hh.leadingLen, hh.room, hh.leading, hh.coreMod⟩

/-- The cut an exponent's magnitude is stopped at. -/
def exponentCut : Nat := 1000000000

/-- Reading the exponent. -/
structure Exponent (a : NumberAccumulator) (modulus : Nat) (negative exponentNegative : Bool) (exponentValue : Nat)
    (digits : List Nat) (places : Nat) : Prop where
  negative : a.negative = negative
  exponent : a.exponent = true
  exponentNegative : a.exponentNegative = exponentNegative
  exponentValue : a.exponentValue = exponentValue
  finished : a.finished = false
  places : a.fractionDigits = places
  digits : ∃ core zeros, Splits digits core zeros ∧ Holds a modulus core zeros

theorem Mantissa.mark {a : NumberAccumulator} {modulus places : Nat} {negative fraction : Bool} {digits : List Nat}
    (h : Mantissa a modulus negative fraction digits places) {b : Byte} (hb : b = 0x65 ∨ b = 0x45) :
    Exponent (a.push b modulus) modulus negative false 0 digits places := by
  have hpush : a.push b modulus = { a with started := true, bytes := satAdd32 a.bytes 1, exponent := true } := by
    unfold push
    rcases hb with rfl | rfl <;> simp [h.finished, isWs, ws]
  obtain ⟨core, zeros, hs, hh⟩ := h.digits
  rw [hpush]
  exact ⟨h.negative, rfl, h.exponent.2.1, h.exponent.2.2, h.finished, h.places, core, zeros, hs, hh.coreDigits,
    hh.pendingZeros, hh.leadingLen, hh.room, hh.leading, hh.coreMod⟩

theorem Exponent.sign {a : NumberAccumulator} {modulus places value : Nat} {negative : Bool} {digits : List Nat}
    (h : Exponent a modulus negative false value digits places) {sign : List Byte}
    (hsign : sign = [] ∨ sign = [0x2d] ∨ sign = [0x2b]) :
    Exponent (sign.foldl (fun a b => a.push b modulus) a) modulus negative (decide (sign = [0x2d])) value digits
    places := by
  obtain ⟨core, zeros, hs, hh⟩ := h.digits
  rcases hsign with rfl | rfl | rfl
  · exact h
  · have hpush : a.push 0x2d modulus =
      { a with started := true, bytes := satAdd32 a.bytes 1, exponentNegative := true } := by
      unfold push
      simp [h.finished, h.exponent, isWs, ws]
    rw [List.foldl_cons, List.foldl_nil, hpush]
    exact ⟨h.negative, h.exponent, rfl, h.exponentValue, h.finished, h.places, core, zeros, hs, hh.coreDigits,
      hh.pendingZeros, hh.leadingLen, hh.room, hh.leading, hh.coreMod⟩
  · have hpush : a.push 0x2b modulus = { a with started := true, bytes := satAdd32 a.bytes 1 } := by
      unfold push
      simp [h.finished, h.exponent, isWs, ws]
    rw [List.foldl_cons, List.foldl_nil, hpush]
    exact ⟨h.negative, h.exponent, h.exponentNegative, h.exponentValue, h.finished, h.places, core, zeros, hs,
      hh.coreDigits, hh.pendingZeros, hh.leadingLen, hh.room, hh.leading, hh.coreMod⟩

/-- **The exponent's digits are read up to the cut.** -/
theorem Exponent.digits_foldl {modulus places : Nat} {negative exponentNegative : Bool} {digits : List Nat} :
    ∀ (bs read : List Byte) (a : NumberAccumulator),
    Exponent a modulus negative exponentNegative (min (Decimal.value read) exponentCut) digits places → AllDigits bs →
      Exponent (bs.foldl (fun a b => a.push b modulus) a) modulus negative exponentNegative
        (min (Decimal.value (read ++ bs)) exponentCut) digits places
  | [], read, a, h, _ => by simpa using h
  | b :: bs, read, a, h, hbs => by
    have hb := hbs.head
    have hpush : a.push b modulus = { a with
        started := true, bytes := satAdd32 a.bytes 1
        exponentValue := min (a.exponentValue * 10 + digitValue b) 1000000000 } := by
      unfold push
      simp [isDigit_not_ws hb, h.finished, h.exponent, isDigit_ne hb (c := 0x2d) (by decide),
        isDigit_ne hb (c := 0x2b) (by decide), isDigit_ne hb (c := 0x2e) (by decide),
        isDigit_ne hb (c := 0x65) (by decide), isDigit_ne hb (c := 0x45) (by decide), isDigit_eq hb, digitValue]
    obtain ⟨core, zeros, hs, hh⟩ := h.digits
    have hcut : min (a.exponentValue * 10 + digitValue b) 1000000000 = min
      (Decimal.value (read ++ [b])) exponentCut := by
      rw [h.exponentValue, Decimal.value_snoc, exponentCut]
      omega
    have hstep : Exponent (a.push b modulus) modulus negative exponentNegative
        (min (Decimal.value (read ++ [b])) exponentCut) digits places := by
      rw [hpush]
      exact ⟨h.negative, h.exponent, h.exponentNegative, hcut, h.finished, h.places, core, zeros, hs, hh.coreDigits,
        hh.pendingZeros, hh.leadingLen, hh.room, hh.leading, hh.coreMod⟩
    have hrest := digits_foldl bs (read ++ [b]) (a.push b modulus) hstep hbs.tail
    rw [List.append_assoc, List.singleton_append] at hrest
    rw [List.foldl_cons]
    exact hrest

end NumberAccumulator

/-! ## The cuts -/

/-- `-u` or `u`. -/
def signOf (negative : Bool) : ℚ := if negative then -1 else 1

/-- An exponent stopped at the cut, whatever its sign. -/
def cutExponent (e : ℤ) : ℤ := max (-(NumberAccumulator.exponentCut : ℤ)) (min e NumberAccumulator.exponentCut)

/-- The digits against a bound of `width` digits: behind the first twenty and up to that width they are not seen. -/
def blank (width : Nat) (digits : List Nat) : List Nat :=
  digits.mapIdx fun i d => if 20 ≤ i ∧ i < width then 0 else d

namespace NumberForm.NumberText

/-- The digits in front of the exponent. -/
def digits (t : NumberText) : List Nat := (t.integer ++ t.fraction.getD []).map digitValue

def places (t : NumberText) : Nat := (t.fraction.getD []).length

/-- **The number as a comparison with a bound of `width` digits sees it.** -/
def seen (t : NumberText) (width : Nat) : ℚ :=
  signOf t.negative * ofDigitsBig (blank width (t.digits.dropWhile fun d => decide (d = 0))) *
    10 ^ (cutExponent t.exponentValue - t.places)

end NumberForm.NumberText

/-- The digits of a bound, without the zeros its scale can do without. -/
def boundWidth (coefficient : Int) (scale : Nat) : Nat :=
  (u128DecimalDigits (trimScale coefficient.natAbs scale).1).length

/-- **What a plan asks of a number**, read as `reads width` against a bound of `width` digits. -/
structure NumberPlan.Admits (plan : NumberPlan) (reads : Nat → ℚ) : Prop where
  integer : plan.integerOnly = true → ∃ k : ℤ, reads 0 = k
  multiple : ∀ c s, plan.multipleOf = some (c, s) → ∃ k : ℤ, reads 0 = k * (c / 10 ^ s)
  minimum : ∀ c s exclusive, plan.minimum = some (c, s, exclusive) →
    (c : ℚ) / 10 ^ s < reads (boundWidth c s) ∨ exclusive = false ∧ (c : ℚ) / 10 ^ s = reads (boundWidth c s)
  maximum : ∀ c s exclusive, plan.maximum = some (c, s, exclusive) →
    reads (boundWidth c s) < (c : ℚ) / 10 ^ s ∨ exclusive = false ∧ reads (boundWidth c s) = (c : ℚ) / 10 ^ s

/-- The plans the compiler builds: an `i128` over a power of ten that a `u32` counts, and no zero divisor. -/
structure NumberPlan.Built (plan : NumberPlan) : Prop where
  multiple : ∀ c s, plan.multipleOf = some (c, s) → 0 < c ∧ s < u32Size
  minimum : ∀ c s exclusive, plan.minimum = some (c, s, exclusive) → c.natAbs ≤ 2 ^ 127 ∧ s < u32Size
  maximum : ∀ c s exclusive, plan.maximum = some (c, s, exclusive) → c.natAbs ≤ 2 ^ 127 ∧ s < u32Size

/-- The divisor a number frame pushes bytes under. -/
def NumberPlan.modulus (plan : NumberPlan) : Nat := (plan.multipleOf.map Prod.fst).getD 1

/-- A fresh accumulator fed some bytes. -/
def NumberPlan.feed (plan : NumberPlan) (bytes : List Byte) : NumberAccumulator :=
  bytes.foldl (fun a b => a.push b plan.modulus) NumberAccumulator.new

namespace NumberAccumulator

/-- **What the accumulator holds of a whole literal.** -/
structure Of (a : NumberAccumulator) (modulus : Nat) (t : NumberText) : Prop where
  negative : a.negative = t.negative
  exponent : a.signedExponent = cutExponent t.exponentValue
  places : a.fractionDigits = t.places
  digits : ∃ core zeros, Splits t.digits core zeros ∧ Holds a modulus core zeros

theorem cutExponent_signed (negative : Bool) (digits : List Byte) :
    (if negative then -((min (Decimal.value digits) exponentCut : Nat) : ℤ)
      else ((min (Decimal.value digits) exponentCut : Nat) : ℤ)) =
      cutExponent (NumberForm.signedValue negative digits) := by
  unfold cutExponent NumberForm.signedValue exponentCut
  cases negative <;> simp only [Bool.false_eq_true, if_false, if_true] <;> omega

theorem length_text (t : NumberText) : t.integer.length + (t.fraction.getD []).length ≤ t.text.length := by
  unfold NumberText.text
  simp only [List.length_append]
  cases t.fraction with
  | none =>
    simp only [Option.getD_none, List.length_nil]
    omega
  | some f =>
    simp only [Option.getD_some, Option.elim_some, List.length_cons]
    omega

/-- The bytes in front of the digits, and those up to the exponent. -/
def signBytes (t : NumberText) : List Byte := if t.negative then [0x2d] else []

def bodyBytes (t : NumberText) : List Byte := t.integer ++ t.fraction.elim [] fun f => 0x2e :: f

def exponentBytes (t : NumberText) : List Byte := t.exponent.elim [] fun e => e.1 :: (e.2.1 ++ e.2.2)

theorem text_eq (t : NumberText) : t.text = signBytes t ++ bodyBytes t ++ exponentBytes t := rfl

/-- Feeding what stands in front of the exponent. -/
theorem feed_mantissa {t : NumberText} (ht : t.Loose) (hlen : t.text.length ≤ u32Max) (modulus : Nat) :
    ∃ fraction, Mantissa ((signBytes t ++ bodyBytes t).foldl (fun a b => a.push b modulus) new) modulus t.negative
      fraction t.digits t.places := by
  have hroom := length_text t
  -- the sign, the digits in front of the point and those behind it
  have hsign : Mantissa ((signBytes t).foldl (fun a b => a.push b modulus) new) modulus t.negative false [] 0 := by
    unfold signBytes
    cases t.negative with
    | false => exact mantissa_new modulus
    | true => exact (mantissa_new modulus).minus
  have hint := hsign.digits_foldl t.integer _ _ _ ht.integer.2 (by simp only [List.length_nil]; omega) (Nat.le_refl 0)
  rw [List.nil_append, ← List.foldl_append] at hint
  simp only [Bool.false_eq_true, if_false] at hint
  unfold bodyBytes NumberText.digits NumberText.places
  cases hf : t.fraction with
  | none =>
    rw [Option.elim_none, Option.getD_none, List.append_nil]
    exact ⟨false, hint⟩
  | some f =>
    rw [hf] at hroom
    rw [Option.getD_some] at hroom ⊢
    have hpoint := hint.point.digits_foldl f _ _ _ (ht.fraction f hf).2
      (by rw [List.length_map]; omega) (Nat.zero_le _)
    rw [← List.map_append] at hpoint
    simp only [if_true, Nat.zero_add] at hpoint
    refine ⟨true, ?_⟩
    rw [Option.elim_some, ← List.append_assoc, List.foldl_append, List.foldl_cons]
    exact hpoint

/-- **Feeding a literal.** -/
theorem feed_text {t : NumberText} (ht : t.Loose) (hlen : t.text.length ≤ u32Max) (modulus : Nat) :
    Of (t.text.foldl (fun a b => a.push b modulus) new) modulus t := by
  obtain ⟨fraction, hmant⟩ := feed_mantissa ht hlen modulus
  rw [text_eq, List.foldl_append]
  unfold exponentBytes
  cases he : t.exponent with
  | none =>
    refine ⟨hmant.negative, ?_, hmant.places, hmant.digits⟩
    rw [Option.elim_none, List.foldl_nil]
    simp only [signedExponent, hmant.exponent.2.1, hmant.exponent.2.2, NumberText.exponentValue, he]
    rfl
  | some e =>
    obtain ⟨mark, sign, digits⟩ := e
    obtain ⟨hmark, hsign', -, hdigits⟩ := ht.exponent mark sign digits he
    rw [Option.elim_some, List.foldl_cons, List.foldl_append]
    have hexp := ((hmant.mark hmark).sign hsign').digits_foldl digits [] _ hdigits
    rw [List.nil_append] at hexp
    refine ⟨hexp.negative, ?_, hexp.places, hexp.digits⟩
    rw [signedExponent, hexp.exponentNegative, hexp.exponentValue, NumberText.exponentValue, he]
    exact cutExponent_signed _ digits

end NumberAccumulator

/-! ## The significant digits -/

theorem mem_of_mem_core {digits core : List Nat} {zeros d : Nat} (h : Splits digits core zeros) (hd : d ∈ core) :
    d ∈ digits := by
  refine (List.dropWhile_sublist (fun d => decide (d = 0))).subset ?_
  rw [h.split]
  exact List.mem_append_left _ hd

theorem Splits.head {digits core : List Nat} {zeros d : Nat} {rest : List Nat} (h : Splits digits core zeros)
    (hcore : core = d :: rest) : d ≠ 0 := by
  have hne : digits.dropWhile (fun d => decide (d = 0)) ≠ [] := by
    rw [h.split, hcore]
    exact List.cons_ne_nil _ _
  have hhead := List.head_dropWhile_not (fun d => decide (d = 0)) hne
  simp only [h.split, hcore, List.cons_append, List.head_cons] at hhead
  exact of_decide_eq_false hhead

theorem Splits.getLast {digits core : List Nat} {zeros : Nat} (h : Splits digits core zeros) (hne : core ≠ []) :
    core.getLast hne ≠ 0 := h.last _ (List.getLast?_eq_some_getLast hne)

/-- The last significant digit is not zero, so ten does not divide. -/
theorem Splits.not_dvd {digits core : List Nat} {zeros : Nat} (h : Splits digits core zeros) (hdigits : Digits digits)
    (hne : core ≠ []) : ¬ 10 ∣ ofDigitsBig core := by
  have hlast := h.getLast hne
  have hlt := hdigits _ (mem_of_mem_core h (List.getLast_mem hne))
  rw [← List.dropLast_append_getLast hne, ofDigitsBig_snoc]
  omega

theorem length_blank (width : Nat) (l : List Nat) : (blank width l).length = l.length := List.length_mapIdx

theorem getD_blank (width : Nat) (l : List Nat) (i : Nat) :
    (blank width l)[i]?.getD 0 = if 20 ≤ i ∧ i < width then 0 else l[i]?.getD 0 := by
  rw [blank, List.getElem?_mapIdx]
  cases l[i]? with
  | none => simp
  | some d =>
    simp only [Option.map_some, Option.getD_some]

theorem digits_blank {l : List Nat} (h : Digits l) (width : Nat) : Digits (blank width l) := by
  intro d hd
  obtain ⟨i, hi⟩ := List.mem_iff_getElem?.1 hd
  have hget := getD_blank width l i
  rw [hi, Option.getD_some] at hget
  rw [hget]
  split
  · decide
  · exact h.getD i

theorem blank_zero (l : List Nat) : blank 0 l = l :=
  List.ext_getElem (length_blank 0 l) (fun i h1 h2 => by simp [blank])

theorem blank_cons (width d : Nat) (l : List Nat) : ∃ l', blank width (d :: l) = d :: l' := by
  rw [blank, List.mapIdx_cons, if_neg (by omega)]
  exact ⟨_, rfl⟩

theorem blank_append_zeros (width : Nat) (l : List Nat) (k : Nat) :
    blank width (l ++ List.replicate k 0) = blank width l ++ List.replicate k 0 := by
  refine List.ext_getElem (by simp [blank]) (fun i h1 h2 => ?_)
  simp only [blank, List.getElem_mapIdx, List.getElem_append, List.length_mapIdx]
  by_cases hi : i < l.length
  · simp only [dif_pos hi]
  · simp only [dif_neg hi, List.getElem_replicate]
    split <;> rfl

namespace NumberAccumulator

variable {a : NumberAccumulator} {modulus zeros : Nat} {t : NumberText} {core : List Nat}

/-- The power of ten behind the significant digits. -/
def shiftOf (t : NumberText) (zeros : Nat) : ℤ := cutExponent t.exponentValue - t.places + zeros

theorem seen_core (hs : Splits t.digits core zeros) (width : Nat) :
    t.seen width = signOf t.negative * ofDigitsBig (blank width core) * 10 ^ shiftOf t zeros := by
  rw [NumberText.seen, hs.split, blank_append_zeros, ofDigitsBig_zeros, shiftOf, zpow_add₀ (by norm_num), zpow_natCast]
  push_cast
  ring

theorem digits_text (ht : t.Loose) : Digits t.digits := by
  intro d hd
  obtain ⟨b, hb, rfl⟩ := List.mem_map.1 hd
  refine Decimal.digitValue_lt ?_
  rcases List.mem_append.1 hb with hb | hb
  · exact ht.integer.2 b hb
  · cases hf : t.fraction with
    | none =>
      rw [hf] at hb
      cases hb
    | some f =>
      rw [hf] at hb
      exact (ht.fraction f hf).2 b hb

theorem shiftOf_bounds (hlen : t.text.length ≤ u32Max) (hs : Splits t.digits core zeros) :
    (core.length : ℤ) + zeros + t.places ≤ 2 * u32Max ∧ -(exponentCut : ℤ) ≤ cutExponent t.exponentValue ∧
      cutExponent t.exponentValue ≤ exponentCut := by
  have hroom := length_text t
  have hle := hs.length_le
  have hdigits : t.digits.length = t.integer.length + (t.fraction.getD []).length := by
    rw [NumberText.digits, List.length_map, List.length_append]
  have hplaces : t.places = (t.fraction.getD []).length := rfl
  refine ⟨?_, ?_, ?_⟩
  · omega
  · unfold cutExponent
    omega
  · unfold cutExponent exponentCut
    omega

theorem u32Max_eq : u32Max = 4294967295 := by decide

theorem shift_eq (h : Of a modulus t) (hs : Splits t.digits core zeros) (hh : Holds a modulus core zeros)
    (hlen : t.text.length ≤ u32Max) : a.shift = shiftOf t zeros := by
  obtain ⟨h1, h2, h3⟩ := shiftOf_bounds hlen hs
  rw [shift, h.exponent, h.places, hh.pendingZeros, shiftOf]
  unfold sat64
  rw [u32Max_eq] at h1
  unfold exponentCut at h2 h3
  norm_num
  omega

theorem signOf_cases (negative : Bool) : signOf negative = 1 ∨ signOf negative = -1 := by
  cases negative
  · exact Or.inl rfl
  · exact Or.inr rfl

/-- **A number is a multiple of an integer exactly when its power of ten is not below one and the integer divides.** -/
theorem multiple_iff {V m : Nat} (hV : ¬ 10 ∣ V) {negative : Bool} (j : ℤ) :
    (∃ k : ℤ, signOf negative * V * 10 ^ j = k * m) ↔ 0 ≤ j ∧ m ∣ V * 10 ^ j.toNat := by
  have hsign : ∀ (x : ℚ) (k : ℤ), signOf negative * x = k → ∃ k' : ℤ, x = k' := by
    intro x k h
    rcases signOf_cases negative with hs | hs
    · exact ⟨k, by rw [← h, hs, one_mul]⟩
    · refine ⟨-k, ?_⟩
      push_cast
      rw [← h, hs]
      ring
  constructor
  · rintro ⟨k, hk⟩
    obtain ⟨k', hk'⟩ : ∃ k' : ℤ, (V : ℚ) * 10 ^ j = k' * m := by
      rcases signOf_cases negative with hs | hs
      · exact ⟨k, by rw [← hk, hs]; ring⟩
      · refine ⟨-k, ?_⟩
        push_cast
        rw [neg_mul, ← hk, hs]
        ring
    by_cases hj : 0 ≤ j
    · refine ⟨hj, ?_⟩
      obtain ⟨n, rfl⟩ := Int.eq_ofNat_of_zero_le hj
      rw [zpow_natCast] at hk'
      have hint : ((V * 10 ^ n : Nat) : ℤ) = k' * (m : ℤ) := by exact_mod_cast hk'
      exact Int.natCast_dvd_natCast.1 ⟨k', by rw [Int.toNat_natCast, hint, mul_comm]⟩
    · exfalso
      obtain ⟨n, rfl⟩ : ∃ n : Nat, j = -(n + 1 : Nat) := ⟨(-j - 1).toNat, by omega⟩
      rw [zpow_neg, zpow_natCast] at hk'
      have hpow : (10 : ℚ) ^ (n + 1) ≠ 0 := by positivity
      have hV' : (V : ℚ) = k' * m * 10 ^ (n + 1) := by
        rw [← hk']
        field_simp
      have hint : (V : ℤ) = k' * m * 10 ^ (n + 1) := by exact_mod_cast hV'
      refine hV (Int.natCast_dvd_natCast.1 ⟨k' * m * 10 ^ n, ?_⟩)
      rw [hint, pow_succ]
      push_cast
      ring
  · rintro ⟨hj, q, hq⟩
    obtain ⟨n, rfl⟩ := Int.eq_ofNat_of_zero_le hj
    rw [Int.toNat_natCast] at hq
    have hrat : (V : ℚ) * 10 ^ n = m * q := by exact_mod_cast hq
    rw [zpow_natCast, mul_assoc, hrat]
    rcases signOf_cases negative with hs | hs
    · exact ⟨q, by rw [hs]; push_cast; ring⟩
    · exact ⟨-q, by rw [hs]; push_cast; ring⟩

theorem core_nil_iff (hh : Holds a modulus core zeros) : a.coreDigits = 0 ↔ core = [] := by
  rw [hh.coreDigits]
  exact List.length_eq_zero_iff

theorem seen_zero (hs : Splits t.digits [] zeros) (width : Nat) : t.seen width = 0 := by
  rw [seen_core hs]
  simp [blank, ofDigitsBig]

theorem numberIsMultiple_iff (h : Of a modulus t) (ht : t.Loose) (hlen : t.text.length ≤ u32Max) {s : Nat}
    (hs : s < u32Size) (hm : 0 < modulus) :
    numberIsMultiple a modulus s = true ↔ ∃ k : ℤ, t.seen 0 = k * (modulus / 10 ^ s) := by
  obtain ⟨core, zeros, hsplit, hh⟩ := h.digits
  by_cases hcore : core = []
  · subst hcore
    rw [numberIsMultiple, if_pos ((core_nil_iff hh).2 rfl), seen_zero hsplit]
    exact ⟨fun _ => ⟨0, by norm_num⟩, fun _ => rfl⟩
  obtain ⟨hb1, hb2, hb3⟩ := shiftOf_bounds hlen hsplit
  have hsat : sat64 (shiftOf t zeros + s) = shiftOf t zeros + s := by
    unfold sat64 shiftOf
    rw [u32Max_eq] at hb1
    unfold exponentCut at hb2 hb3
    unfold u32Size at hs
    norm_num at hs ⊢
    omega
  have hscale : (∃ k : ℤ, t.seen 0 = k * (modulus / 10 ^ s)) ↔
      ∃ k : ℤ, signOf t.negative * ofDigitsBig core * 10 ^ (shiftOf t zeros + s) = k * modulus := by
    refine exists_congr (fun k => ?_)
    have hpow : (10 : ℚ) ^ s ≠ 0 := by positivity
    rw [seen_core hsplit, blank_zero, zpow_add₀ (by norm_num), zpow_natCast]
    constructor
    · intro heq
      rw [← mul_assoc, heq]
      field_simp
    · intro heq
      rw [← mul_assoc] at heq
      field_simp
      linarith
  rw [hscale, multiple_iff (hsplit.not_dvd (digits_text ht) hcore)]
  rw [numberIsMultiple, if_neg (fun h => hcore ((core_nil_iff hh).1 h)), shift_eq h hsplit hh hlen, hsat]
  by_cases hneg : shiftOf t zeros + s < 0
  · rw [if_pos hneg]
    exact ⟨fun h => (by cases h), fun h => absurd h.1 (by omega)⟩
  rw [if_neg hneg]
  by_cases hone : modulus = 1
  · rw [if_pos hone, hone]
    exact ⟨fun _ => ⟨by omega, one_dvd _⟩, fun _ => rfl⟩
  · rw [if_neg hone, decide_eq_true_iff, hh.coreMod (by omega), modularPowerOfTen_eq, ← Nat.mul_mod,
      ← Nat.dvd_iff_mod_eq_zero]
    exact ⟨fun h => ⟨by omega, h⟩, fun h => h.2⟩

theorem numberIsInteger_iff (h : Of a modulus t) (ht : t.Loose) (hlen : t.text.length ≤ u32Max) :
    numberIsInteger a = true ↔ ∃ k : ℤ, t.seen 0 = k := by
  obtain ⟨core, zeros, hsplit, hh⟩ := h.digits
  rw [numberIsInteger, decide_eq_true_iff]
  by_cases hcore : core = []
  · subst hcore
    rw [seen_zero hsplit]
    exact ⟨fun _ => ⟨0, by norm_num⟩, fun _ => Or.inl ((core_nil_iff hh).2 rfl)⟩
  have hiff := @multiple_iff _ 1 (hsplit.not_dvd (digits_text ht) hcore) t.negative (shiftOf t zeros)
  rw [seen_core hsplit, blank_zero, shift_eq h hsplit hh hlen]
  simp only [Nat.cast_one, mul_one] at hiff
  rw [hiff]
  constructor
  · rintro (hz | hshift)
    · exact absurd ((core_nil_iff hh).1 hz) hcore
    · exact ⟨hshift, one_dvd _⟩
  · exact fun h => Or.inr h.1

/-! ## Bounds -/

/-- Zeros taken off with the scale change nothing. -/
theorem trimScale_spec :
    ∀ (scale bound : Nat), ((trimScale bound scale).1 : ℚ) / 10 ^ (trimScale bound scale).2 = bound / 10 ^ scale ∧
    (trimScale bound scale).2 ≤ scale ∧ (trimScale bound scale).1 ≤ bound ∧ (bound ≠ 0 → (trimScale bound scale).1 ≠ 0)
  | 0, bound => ⟨rfl, Nat.le_refl 0, Nat.le_refl bound, id⟩
  | scale + 1, bound => by
    rw [trimScale]
    split
    · rename_i hzero
      obtain ⟨h1, h2, h3, h4⟩ := trimScale_spec scale (bound / 10)
      obtain ⟨q, rfl⟩ := Nat.dvd_of_mod_eq_zero hzero
      rw [Nat.mul_div_cancel_left q (by decide)] at h1 h2 h3 h4 ⊢
      refine ⟨?_, by omega, by omega, fun hne => h4 (by omega)⟩
      rw [h1, pow_succ]
      push_cast
      field_simp
    · exact ⟨rfl, Nat.le_refl _, Nat.le_refl _, id⟩

/-- The digits of a bound that is not zero. -/
theorem u128DecimalDigits_spec {b : Nat} (hb : b ≠ 0) : Digits (u128DecimalDigits b) ∧
    (∃ d rest, u128DecimalDigits b = d :: rest ∧ d ≠ 0) ∧
    frac (u128DecimalDigits b) * 10 ^ (u128DecimalDigits b).length = b := by
  have hne := (Nat.digits_ne_nil_iff_ne_zero (b := 10)).2 hb
  refine ⟨?_, ?_, ?_⟩
  · intro d hd
    exact Nat.digits_lt_base (by decide) (List.mem_reverse.1 hd)
  · refine ⟨(Nat.digits 10 b).getLast hne, (Nat.digits 10 b).dropLast.reverse, ?_, Nat.getLast_digit_ne_zero 10 hb⟩
    rw [u128DecimalDigits]
    conv_lhs => rw [← List.dropLast_append_getLast hne, List.reverse_append]
    rfl
  · rw [u128DecimalDigits, List.length_reverse, DigitFraction.frac_digits_reverse, Nat.ofDigits_digits]

theorem length_u128DecimalDigits_le {b : Nat} (hb : b ≤ 2 ^ 127) : (u128DecimalDigits b).length ≤ 39 := by
  rw [u128DecimalDigits, List.length_reverse, Nat.digits_length_le_iff (by decide)]
  calc b ≤ 2 ^ 127 := hb
    _ < 10 ^ 39 := by norm_num

/-- **The digit loop compares fractions**, as far as it goes. -/
theorem compareDigits_frac {left x y : List Nat} (hx : Digits x) (hy : Digits y) : ∀ (n i : Nat),
    (∀ k, i ≤ k → k < i + n → left[k]?.getD 0 = x[k]?.getD 0) →
    compare (frac (x.drop i)) (frac (y.drop i)) =
      match compareDigits left y n i with
      | .eq => compare (frac (x.drop (i + n))) (frac (y.drop (i + n)))
      | o => o
  | 0, i, _ => rfl
  | n + 1, i, h => by
    have ih := compareDigits_frac hx hy n (i + 1) (fun k hk hlt => h k (by omega) (by omega))
    rw [DigitFraction.compare_frac_drop hx hy i, compareDigits, h i (Nat.le_refl i) (by omega)]
    rw [show i + 1 + n = i + (n + 1) by omega] at ih
    cases compare (x[i]?.getD 0) (y[i]?.getD 0) with
    | eq => exact ih
    | lt => rfl
    | gt => rfl

/-- The digits kept, against those of a bound: what the loop and the count decide. -/
theorem compareLeading (hs : Splits t.digits core zeros) (hh : Holds a modulus core zeros) (hdigits : Digits t.digits)
    (hne : core ≠ []) {bound : List Nat} (hb : Digits bound) :
    compare (frac (blank bound.length core)) (frac bound) =
      match compareDigits a.leading bound (max a.leadingLen bound.length) 0 with
      | .eq => if max a.leadingLen bound.length < a.coreDigits then .gt else .eq
      | o => o := by
  have hcore : Digits core := fun d hd => hdigits d (mem_of_mem_core hs hd)
  have hloop := @compareDigits_frac a.leading _ _ (digits_blank hcore bound.length) hb
    (max a.leadingLen bound.length) 0 (fun k _ hk => by
      rw [hh.leading, getD_blank]
      have := hh.leadingLen
      by_cases h20 : k < 20
      · rw [if_pos h20, if_neg (by omega)]
      · rw [if_neg h20, if_pos (by omega)])
  rw [List.drop_zero, List.drop_zero, Nat.zero_add] at hloop
  rw [hloop]
  have hbound : bound.drop (max a.leadingLen bound.length) = [] := List.drop_eq_nil_of_le (Nat.le_max_right _ _)
  have htail : compare (frac ((blank bound.length core).drop (max a.leadingLen bound.length)))
      (frac (bound.drop (max a.leadingLen bound.length))) =
      if max a.leadingLen bound.length < a.coreDigits then .gt else .eq := by
    rw [hbound, hh.coreDigits]
    by_cases hlt : max a.leadingLen bound.length < core.length
    · rw [if_pos hlt]
      -- the last digit lies behind what was compared, and it is kept
      refine compare_gt_iff_gt.2 ?_
      have hpos := List.length_pos_of_ne_nil hne
      have hleading := hh.leadingLen
      have hlast := hs.getLast hne
      rw [List.getLast_eq_getElem] at hlast
      have hget : (blank bound.length core)[core.length - 1]? = some core[core.length - 1] := by
        rw [blank, List.getElem?_mapIdx, List.getElem?_eq_getElem (by omega), Option.map_some, if_neg (by omega)]
      have hmem : core[core.length - 1] ∈ (blank bound.length core).drop (max a.leadingLen bound.length) := by
        refine List.mem_of_getElem? (i := core.length - 1 - max a.leadingLen bound.length) ?_
        rw [List.getElem?_drop, ← hget]
        congr 1
        omega
      exact DigitFraction.frac_pos_of_mem hmem hlast
    · rw [if_neg hlt, List.drop_eq_nil_of_le (by rw [length_blank]; omega)]
      exact compare_eq_iff_eq.2 rfl
  rw [htail]

theorem frac_bounds {l : List Nat} (hl : Digits l) {d : Nat} {rest : List Nat} (hcons : l = d :: rest) (hd : d ≠ 0) :
    1 / 10 ≤ frac l ∧ frac l < 1 := by
  refine ⟨?_, DigitFraction.frac_lt_one hl⟩
  rw [hcons]
  exact DigitFraction.tenth_le_frac hd rest

/-- The magnitude a comparison sees. -/
theorem seen_magnitude (hs : Splits t.digits core zeros) (width : Nat) :
    t.seen width = signOf t.negative * (frac (blank width core) * 10 ^ (core.length + shiftOf t zeros)) := by
  rw [seen_core hs, ofDigitsBig_frac, length_blank, zpow_add₀ (by norm_num), zpow_natCast]
  ring

/-- **Magnitudes are compared as the comparison sees them.** -/
theorem compareMagnitude_eq (h : Of a modulus t) (ht : t.Loose) (hlen : t.text.length ≤ u32Max)
    (hs : Splits t.digits core zeros) (hh : Holds a modulus core zeros) (hne : core ≠ []) {b s : Nat} (hb : b ≠ 0)
    (hsmall : b ≤ 2 ^ 127) (hscale : s < u32Size) :
    compareNumberMagnitudeToBound a b s =
      compare (frac (blank (u128DecimalDigits (trimScale b s).1).length core) * 10 ^ (core.length + shiftOf t zeros))
        ((b : ℚ) / 10 ^ s) := by
  obtain ⟨htrim, htrim2, htrim3, htrim4⟩ := trimScale_spec s b
  obtain ⟨hbdigits, ⟨d, rest, hcons, hd⟩, hvalue⟩ := u128DecimalDigits_spec (htrim4 hb)
  have hlength := length_u128DecimalDigits_le (Nat.le_trans htrim3 hsmall)
  have hbound : (b : ℚ) / 10 ^ s = frac (u128DecimalDigits (trimScale b s).1) *
      10 ^ (((u128DecimalDigits (trimScale b s).1).length : ℤ) - (trimScale b s).2) := by
    rw [← htrim, ← hvalue, zpow_sub₀ (by norm_num), zpow_natCast, zpow_natCast]
    ring
  obtain ⟨hb1, hb2, hb3⟩ := shiftOf_bounds hlen hs
  rw [u32Max_eq] at hb1
  unfold exponentCut at hb2 hb3
  unfold u32Size at hscale
  norm_num at hscale
  have hsci : sat64 (sat64 (a.coreDigits + a.shift) - 1) = core.length + shiftOf t zeros - 1 := by
    rw [shift_eq h hs hh hlen, hh.coreDigits]
    unfold sat64 shiftOf
    norm_num
    omega
  have hbsci : sat64 (sat64 (((u128DecimalDigits (trimScale b s).1).length : ℤ) - (trimScale b s).2) - 1) =
      ((u128DecimalDigits (trimScale b s).1).length : ℤ) - (trimScale b s).2 - 1 := by
    unfold sat64
    norm_num
    omega
  obtain ⟨c, crest, hcore⟩ := List.exists_cons_of_ne_nil hne
  obtain ⟨l', hblank⟩ := blank_cons (u128DecimalDigits (trimScale b s).1).length c crest
  rw [← hcore] at hblank
  have hcdigits : Digits core := fun d hd => digits_text ht d (mem_of_mem_core hs hd)
  obtain ⟨hx0, hx1⟩ := frac_bounds (digits_blank hcdigits _) hblank (hs.head hcore)
  obtain ⟨hy0, hy1⟩ := frac_bounds hbdigits hcons hd
  rw [hbound, DigitFraction.compare_scaled hx0 hx1 hy0 hy1, compareLeading hs hh (digits_text ht) hne hbdigits]
  unfold compareNumberMagnitudeToBound
  rw [if_neg hb]
  simp only [hsci, hbsci]
  have hcompare : compare (core.length + shiftOf t zeros - 1)
      (((u128DecimalDigits (trimScale b s).1).length : ℤ) - (trimScale b s).2 - 1) =
      compare (core.length + shiftOf t zeros) (((u128DecimalDigits (trimScale b s).1).length : ℤ) -
        (trimScale b s).2) :=
    DigitFraction.compare_congr (by omega) (by omega)
  exact hcompare ▸ rfl

/-- **A literal is compared with a bound as the comparison sees it.** -/
theorem compareNumberToBound_eq (h : Of a modulus t) (ht : t.Loose) (hlen : t.text.length ≤ u32Max) {c : Int} {s : Nat}
    (hsmall : c.natAbs ≤ 2 ^ 127) (hscale : s < u32Size) :
    compareNumberToBound a c s = compare (t.seen (boundWidth c s)) ((c : ℚ) / 10 ^ s) := by
  obtain ⟨core, zeros, hs, hh⟩ := h.digits
  have hpow : (0 : ℚ) < 10 ^ s := by positivity
  by_cases hcore : core = []
  · subst hcore
    rw [compareNumberToBound, if_pos ((core_nil_iff hh).2 rfl), seen_zero hs]
    refine DigitFraction.compare_congr ?_ ?_
    · rw [lt_div_iff₀ hpow, zero_mul]
      exact Int.cast_pos.symm
    · rw [div_lt_iff₀ hpow, zero_mul]
      exact Int.cast_lt_zero.symm
  obtain ⟨d, rest, hcons⟩ := List.exists_cons_of_ne_nil hcore
  obtain ⟨l', hblank⟩ := blank_cons (boundWidth c s) d rest
  rw [← hcons] at hblank
  have hcdigits : Digits core := fun d hd => digits_text ht d (mem_of_mem_core hs hd)
  obtain ⟨hx0, -⟩ := frac_bounds (digits_blank hcdigits _) hblank (hs.head hcons)
  have hpos : 0 < frac (blank (boundWidth c s) core) * 10 ^ (core.length + shiftOf t zeros) := by
    have : (0 : ℚ) < frac (blank (boundWidth c s) core) := by linarith
    positivity
  have hmag : c ≠ 0 → compareNumberMagnitudeToBound a c.natAbs s =
      compare (frac (blank (boundWidth c s) core) * 10 ^ (core.length + shiftOf t zeros)) ((c.natAbs : ℚ) / 10 ^ s) :=
    fun hc => compareMagnitude_eq h ht hlen hs hh hcore (Int.natAbs_ne_zero.2 hc) hsmall hscale
  rw [seen_magnitude hs]
  rw [compareNumberToBound, if_neg (fun hz => hcore ((core_nil_iff hh).1 hz)), h.negative]
  generalize frac (blank (boundWidth c s) core) * 10 ^ (core.length + shiftOf t zeros) = x at hpos hmag
  by_cases hneg : c < 0
  · have hbound : (c : ℚ) / 10 ^ s = -((c.natAbs : ℚ) / 10 ^ s) := by
      rw [Nat.cast_natAbs, abs_of_neg hneg]
      push_cast
      ring
    cases htneg : t.negative with
    | true =>
      simp only [hneg, decide_true, ne_eq, not_true_eq_false, if_false, if_true, signOf]
      rw [hmag (by omega), hbound, neg_one_mul, DigitFraction.compare_neg]
    | false =>
      simp only [hneg, decide_true, ne_eq, Bool.false_eq_true, not_false_eq_true, if_true, if_false, signOf, one_mul]
      refine (compare_gt_iff_gt.2 (lt_trans ?_ hpos)).symm
      rw [div_lt_iff₀ hpow, zero_mul]
      exact Int.cast_lt_zero.2 hneg
  · have hbound : (c : ℚ) / 10 ^ s = (c.natAbs : ℚ) / 10 ^ s := by
      rw [Nat.cast_natAbs, abs_of_nonneg (by omega)]
    have hbound0 : 0 ≤ (c : ℚ) / 10 ^ s := by
      rw [hbound]
      positivity
    cases htneg : t.negative with
    | true =>
      simp only [hneg, decide_false, ne_eq, Bool.true_eq_false, not_false_eq_true, if_true, signOf]
      refine (compare_lt_iff_lt.2 (lt_of_lt_of_le ?_ hbound0)).symm
      linarith
    | false =>
      simp only [hneg, decide_false, ne_eq, not_true_eq_false, if_false, Bool.false_eq_true, signOf, one_mul]
      by_cases hc : c = 0
      · subst hc
        rw [compareNumberMagnitudeToBound, if_pos Int.natAbs_zero]
        refine (compare_gt_iff_gt.2 ?_).symm
        simpa using hpos
      · rw [hmag hc, hbound]

/-- What the checks read off the accumulator. -/
theorem numberAccepts_parts (a : NumberAccumulator) (plan : NumberPlan) : numberAccepts a plan = true ↔
    (plan.integerOnly = true → numberIsInteger a = true) ∧
    (∀ c s, plan.multipleOf = some (c, s) → numberIsMultiple a c s = true) ∧
    (∀ c s exclusive, plan.minimum = some (c, s, exclusive) →
      compareNumberToBound a c s = .gt ∨ exclusive = false ∧ compareNumberToBound a c s = .eq) ∧
    ∀ c s exclusive, plan.maximum = some (c, s, exclusive) →
      compareNumberToBound a c s = .lt ∨ exclusive = false ∧ compareNumberToBound a c s = .eq := by
  unfold numberAccepts
  simp only [Bool.and_eq_true, Bool.or_eq_true, Bool.not_eq_true', Option.all_eq_true, Prod.forall, and_assoc]
  refine and_congr ?_ (and_congr Iff.rfl (and_congr ?_ ?_))
  · cases plan.integerOnly <;> simp
  · refine forall_congr' fun c => forall_congr' fun s => forall_congr' fun exclusive => imp_congr_right fun _ => ?_
    cases compareNumberToBound a c s <;> simp
  · refine forall_congr' fun c => forall_congr' fun s => forall_congr' fun exclusive => imp_congr_right fun _ => ?_
    cases compareNumberToBound a c s <;> simp

/-- **The checks decide a plan on the number they see.** -/
theorem numberAccepts_iff {plan : NumberPlan} (h : Of a plan.modulus t) (ht : t.Loose) (hlen : t.text.length ≤ u32Max)
    (hplan : plan.Built) : numberAccepts a plan = true ↔ plan.Admits t.seen := by
  have hmult : ∀ c s, plan.multipleOf = some (c, s) →
      (numberIsMultiple a c s = true ↔ ∃ k : ℤ, t.seen 0 = k * (c / 10 ^ s)) := by
    intro c s hm
    have hmod : plan.modulus = c := by rw [NumberPlan.modulus, hm]; rfl
    rw [hmod] at h
    obtain ⟨hc, hs⟩ := hplan.multiple c s hm
    exact numberIsMultiple_iff h ht hlen hs hc
  rw [numberAccepts_parts, numberIsInteger_iff h ht hlen]
  constructor
  · rintro ⟨h1, h2, h3, h4⟩
    refine ⟨h1, fun c s hm => (hmult c s hm).1 (h2 c s hm), fun c s exclusive hm => ?_, fun c s exclusive hm => ?_⟩
    · obtain ⟨hc, hs⟩ := hplan.minimum c s exclusive hm
      have hcmp := h3 c s exclusive hm
      rw [compareNumberToBound_eq h ht hlen hc hs, compare_gt_iff_gt, compare_eq_iff_eq] at hcmp
      exact hcmp.imp_right (And.imp_right Eq.symm)
    · obtain ⟨hc, hs⟩ := hplan.maximum c s exclusive hm
      have hcmp := h4 c s exclusive hm
      rwa [compareNumberToBound_eq h ht hlen hc hs, compare_lt_iff_lt, compare_eq_iff_eq] at hcmp
  · rintro ⟨h1, h2, h3, h4⟩
    refine ⟨h1, fun c s hm => (hmult c s hm).2 (h2 c s hm), fun c s exclusive hm => ?_, fun c s exclusive hm => ?_⟩
    · obtain ⟨hc, hs⟩ := hplan.minimum c s exclusive hm
      rw [compareNumberToBound_eq h ht hlen hc hs, compare_gt_iff_gt, compare_eq_iff_eq]
      exact (h3 c s exclusive hm).imp_right (And.imp_right Eq.symm)
    · obtain ⟨hc, hs⟩ := hplan.maximum c s exclusive hm
      rw [compareNumberToBound_eq h ht hlen hc hs, compare_lt_iff_lt, compare_eq_iff_eq]
      exact h4 c s exclusive hm

/-! ## The sign of a prefix -/

theorem push_keeps_negative {b : Byte} (hb : b ≠ 0x2d ∨ a.exponent = true) :
    (a.push b modulus).negative = a.negative := by
  unfold push
  split
  · split <;> rfl
  simp only
  split
  · rfl
  split
  · rename_i h
    rcases hb with hb | hb
    · exact absurd h.1 hb
    · rw [hb] at h
      exact absurd h.2.1 (by decide)
  split
  · rfl
  split
  · rfl
  split
  · rfl
  split
  · rfl
  split
  · split
    · rfl
    · exact (pushDigit_frame _ _ _).1
  · rfl

theorem push_keeps_exponent {b : Byte} (h : a.exponent = true) : (a.push b modulus).exponent = true := by
  unfold push
  simp only [h, if_true, Bool.true_eq_false, false_and, and_false, if_false, and_true]
  repeat' split
  all_goals first | exact h | rfl

theorem foldl_keeps_negative : ∀ (bs : List Byte) (a : NumberAccumulator), (∀ b ∈ bs, b ≠ 0x2d) →
    (bs.foldl (fun a b => a.push b modulus) a).negative = a.negative
  | [], a, _ => rfl
  | b :: bs, a, h => by
    rw [List.foldl_cons, foldl_keeps_negative bs _ (fun c hc => h c (List.mem_cons_of_mem _ hc))]
    exact push_keeps_negative (Or.inl (h b List.mem_cons_self))

theorem foldl_exponent_keeps_negative : ∀ (bs : List Byte) (a : NumberAccumulator), a.exponent = true →
    (bs.foldl (fun a b => a.push b modulus) a).negative = a.negative
  | [], a, _ => rfl
  | b :: bs, a, h => by
    rw [List.foldl_cons, foldl_exponent_keeps_negative bs _ (push_keeps_exponent h)]
    exact push_keeps_negative (Or.inr h)

theorem digit_not_minus {b : Byte} (h : IsDigit b) : b ≠ 0x2d := isDigit_ne h (by decide)

theorem body_no_minus (ht : t.Loose) : ∀ b ∈ bodyBytes t, b ≠ 0x2d := by
  intro b hb
  rcases List.mem_append.1 hb with hb | hb
  · exact digit_not_minus (ht.integer.2 b hb)
  · cases hf : t.fraction with
    | none =>
      rw [hf] at hb
      cases hb
    | some f =>
      rw [hf, Option.elim_some] at hb
      rcases List.mem_cons.1 hb with rfl | hb
      · decide
      · exact digit_not_minus ((ht.fraction f hf).2 b hb)

/-- **From its first byte on a prefix has the literal's sign.** -/
theorem feed_negative (ht : t.Loose) (hlen : t.text.length ≤ u32Max) (modulus : Nat) {p : List Byte}
    (hp : p <+: t.text) (hne : p ≠ []) : (p.foldl (fun a b => a.push b modulus) new).negative = t.negative := by
  obtain ⟨n, hn⟩ : ∃ n, p = t.text.take n := ⟨p.length, List.prefix_iff_eq_take.1 hp⟩
  have hpos : n ≠ 0 := by
    rintro rfl
    exact hne hn
  have hsigned : ((signBytes t).foldl (fun a b => a.push b modulus) new).negative = t.negative := by
    unfold signBytes
    cases t.negative <;> rfl
  have hsignLen : (signBytes t).length ≤ n := by
    unfold signBytes
    split
    · exact Nat.one_le_iff_ne_zero.2 hpos
    · exact Nat.zero_le _
  rw [hn, text_eq, List.append_assoc, List.take_append, List.take_of_length_le hsignLen, List.take_append,
    List.foldl_append, List.foldl_append]
  -- no minus sign in the digits, and the exponent's does not count
  by_cases hbody : n - (signBytes t).length ≤ (bodyBytes t).length
  · rw [Nat.sub_eq_zero_of_le hbody, List.take_zero, List.foldl_nil,
      foldl_keeps_negative _ _ (fun b hb => body_no_minus ht b (List.mem_of_mem_take hb)), hsigned]
  · obtain ⟨fraction, hmant⟩ := feed_mantissa ht hlen modulus
    have hjoin : (bodyBytes t).foldl (fun a b => a.push b modulus)
        ((signBytes t).foldl (fun a b => a.push b modulus) new) =
        (signBytes t ++ bodyBytes t).foldl (fun a b => a.push b modulus) new := List.foldl_append.symm
    rw [List.take_of_length_le (by omega), hjoin]
    unfold exponentBytes
    cases he : t.exponent with
    | none =>
      rw [Option.elim_none, List.take_nil, List.foldl_nil]
      exact hmant.negative
    | some e =>
      obtain ⟨mark, sign, digits⟩ := e
      obtain ⟨hmark, -⟩ := ht.exponent mark sign digits he
      have hexp := hmant.mark hmark
      obtain ⟨k, hk⟩ : ∃ k, n - (signBytes t).length - (bodyBytes t).length = k + 1 :=
        ⟨_, (Nat.succ_pred_eq_of_pos (by omega)).symm⟩
      rw [Option.elim_some, hk, List.take_succ_cons, List.foldl_cons, foldl_exponent_keeps_negative _ _ hexp.exponent]
      exact hexp.negative

/-- A literal the checks accept lies on the side of zero its prefixes say. -/
theorem viable_of_accepts {b : NumberAccumulator} {plan : NumberPlan} (h : numberAccepts a plan = true)
    (hb : b.negative = a.negative) : numberPrefixSignViable b plan = true := by
  obtain ⟨-, -, hmin, hmax⟩ := (numberAccepts_parts a plan).1 h
  unfold numberPrefixSignViable
  rw [hb]
  cases ha : a.negative with
  | true =>
    rw [if_pos rfl, Option.all_eq_true]
    rintro ⟨c, s, exclusive⟩ hm
    rw [decide_eq_true_iff]
    have hcmp := hmin c s exclusive hm
    unfold compareNumberToBound at hcmp
    rw [ha] at hcmp
    by_cases hz : a.coreDigits = 0
    · rw [if_pos hz, compare_gt_iff_gt, compare_eq_iff_eq] at hcmp
      rcases hcmp with hlt | ⟨hexcl, heq⟩
      · exact Or.inl hlt
      · exact Or.inr ⟨heq.symm, hexcl⟩
    · rw [if_neg hz] at hcmp
      by_cases hc : c < 0
      · exact Or.inl hc
      · simp [hc] at hcmp
  | false =>
    rw [if_neg (by decide), Option.all_eq_true]
    rintro ⟨c, s, exclusive⟩ hm
    rw [decide_eq_true_iff]
    have hcmp := hmax c s exclusive hm
    unfold compareNumberToBound at hcmp
    rw [ha] at hcmp
    by_cases hz : a.coreDigits = 0
    · rw [if_pos hz, compare_lt_iff_lt, compare_eq_iff_eq] at hcmp
      rcases hcmp with hlt | ⟨-, heq⟩
      · exact Int.le_of_lt hlt
      · exact Int.le_of_eq heq
    · rw [if_neg hz] at hcmp
      by_cases hc : c < 0
      · simp [hc] at hcmp
      · exact Int.not_lt.1 hc

/-- A literal the plan admits does too. -/
theorem viable_of_admits {b : NumberAccumulator} {plan : NumberPlan} (h : plan.Admits fun _ => t.value)
    (hb : b.negative = t.negative) : numberPrefixSignViable b plan = true := by
  have hmag : 0 ≤ (Decimal.value (t.integer ++ t.fraction.getD []) : ℚ) *
      10 ^ (t.exponentValue - (t.fraction.getD []).length) := by positivity
  have hpow : ∀ s : Nat, (0 : ℚ) < 10 ^ s := fun s => by positivity
  have hvalue : t.value = signOf t.negative * (Decimal.value (t.integer ++ t.fraction.getD []) *
      10 ^ (t.exponentValue - (t.fraction.getD []).length)) := by
    rw [NumberText.value, signOf, mul_assoc]
  unfold numberPrefixSignViable
  rw [hb]
  cases hneg : t.negative with
  | true =>
    rw [hneg] at hvalue
    have hle : t.value ≤ 0 := by
      rw [hvalue, signOf, if_pos rfl]
      linarith
    rw [if_pos rfl, Option.all_eq_true]
    rintro ⟨c, s, exclusive⟩ hm
    rw [decide_eq_true_iff]
    rcases h.minimum c s exclusive hm with hlt | ⟨hexcl, heq⟩
    · refine Or.inl ?_
      have hc := lt_of_lt_of_le hlt hle
      rw [div_lt_iff₀ (hpow s), zero_mul] at hc
      exact Int.cast_lt_zero.1 hc
    · have hc := le_of_eq_of_le heq hle
      rw [div_le_iff₀ (hpow s), zero_mul] at hc
      rcases lt_or_eq_of_le (Int.cast_nonpos.1 hc) with hlt | hzero
      · exact Or.inl hlt
      · exact Or.inr ⟨hzero, hexcl⟩
  | false =>
    rw [hneg] at hvalue
    have hge : 0 ≤ t.value := by
      rw [hvalue, signOf, if_neg (by decide), one_mul]
      exact hmag
    rw [if_neg (by decide), Option.all_eq_true]
    rintro ⟨c, s, exclusive⟩ hm
    rw [decide_eq_true_iff]
    have hle : t.value ≤ (c : ℚ) / 10 ^ s := by
      rcases h.maximum c s exclusive hm with hlt | ⟨-, heq⟩
      · exact le_of_lt hlt
      · exact le_of_eq heq
    have hc := le_trans hge hle
    rw [le_div_iff₀ (hpow s), zero_mul] at hc
    exact Int.cast_nonneg_iff.1 hc

end NumberAccumulator

open NumberAccumulator (viable_of_accepts viable_of_admits feed_negative feed_text numberAccepts_iff)

/-- Before any byte a plan asks whether its maximum is below zero. -/
theorem viable_nothing (plan : NumberPlan) : numberPrefixSignViable (plan.feed []) plan = true ↔
    ∀ c s exclusive, plan.maximum = some (c, s, exclusive) → 0 ≤ c := by
  unfold numberPrefixSignViable NumberPlan.feed
  rw [List.foldl_nil, NumberAccumulator.new, if_neg (by decide), Option.all_eq_true]
  simp only [Prod.forall, decide_eq_true_iff]

theorem numberAccepts_feed {plan : NumberPlan} {t : NumberText} (hplan : plan.Built) (ht : t.Loose)
    (hlen : t.text.length ≤ u32Max) : numberAccepts (plan.feed t.text) plan = true ↔ plan.Admits t.seen :=
  numberAccepts_iff (feed_text ht hlen plan.modulus) ht hlen hplan

end MaskForge
