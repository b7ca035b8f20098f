import MaskForge.Structured.NumberExact
/-!
# NumberCuts — where the cuts of the accumulator are felt

The accumulator keeps twenty significant digits and stops the exponent at `10 ^ 9`, either way.  The digits it lets go
matter to a bound of more than twenty digits that lies between the literal cut behind its twentieth digit and the
literal itself; the exponent it stops matters only to scales, or literals, about as large as the stop.
-/
namespace MaskForge

open Decimal (AllDigits IsDigit digitValue)
open DigitFraction (frac Digits)
open NumberForm (NumberText)
open NumberAccumulator (exponentCut viable_of_accepts viable_of_admits feed_negative feed_text numberAccepts_iff)

namespace NumberForm.NumberText

def significant (t : NumberText) : List Nat := t.digits.dropWhile fun d => decide (d = 0)

/-- The magnitude of the literal with another exponent. -/
def magnitude (t : NumberText) (e : ℤ) : ℚ := frac t.significant * 10 ^ ((t.significant.length : ℤ) + (e - t.places))

/-- The same, cut behind the twentieth significant digit. -/
def headMagnitude (t : NumberText) (e : ℤ) : ℚ :=
  frac (t.significant.take 20) * 10 ^ ((t.significant.length : ℤ) + (e - t.places))

def valueAt (t : NumberText) (e : ℤ) : ℚ := signOf t.negative * t.magnitude e

/-- **The first twenty digits do not tell on which side of a bound the literal is**: the bound has more, and lies
between the literal cut behind them and the literal itself.  At which end it may lie depends on whether the check
passes there. -/
def Hides (t : NumberText) (e : ℤ) (upper : Bool) (c : Int) (s : Nat) (exclusive : Bool) : Prop :=
  20 < boundWidth c s ∧ (t.negative = true ↔ c < 0) ∧
    if (upper != t.negative) = exclusive then
      t.headMagnitude e < (c.natAbs : ℚ) / 10 ^ s ∧ (c.natAbs : ℚ) / 10 ^ s ≤ t.magnitude e
    else
      (c.natAbs : ℚ) / 10 ^ s < t.magnitude e ∧ (t.headMagnitude e < (c.natAbs : ℚ) / 10 ^ s ∨
        t.headMagnitude e = (c.natAbs : ℚ) / 10 ^ s ∧ ∀ d ∈ t.significant.drop (boundWidth c s), d = 0)

/-- The bound of a plan, if it has one, is hidden. -/
def HidesBound (t : NumberText) (e : ℤ) (upper : Bool) (bound : Option (Int × Nat × Bool)) : Prop :=
  ∃ m, bound = some m ∧ t.Hides e upper m.1 m.2.1 m.2.2

end NumberForm.NumberText

namespace NumberPlan

/-- **Just one bound is hidden, and the literal meets everything else the plan asks.** -/
def Misled (plan : NumberPlan) (t : NumberText) (e : ℤ) : Prop :=
  (t.HidesBound e false plan.minimum ∧ ¬t.HidesBound e true plan.maximum ∧
      { plan with minimum := none }.Admits fun _ => t.valueAt e) ∨
    (t.HidesBound e true plan.maximum ∧ ¬t.HidesBound e false plan.minimum ∧
      { plan with maximum := none }.Admits fun _ => t.valueAt e)

/-- The places and digits the numbers of a plan take up. -/
def reach (plan : NumberPlan) : Nat :=
  max (plan.multipleOf.elim 0 fun m => m.2 + m.1.size)
    (max (plan.minimum.elim 0 fun m => m.2.1 + 39) (plan.maximum.elim 0 fun m => m.2.1 + 39))

/-- The exponent is not stopped, or stopped far beyond anything the literal and the plan could tell apart. -/
def InRange (plan : NumberPlan) (t : NumberText) : Prop :=
  t.exponentValue.natAbs ≤ exponentCut ∨ t.text.length + plan.reach < exponentCut

end NumberPlan

/-! ## One bound -/

section Bound
variable {t : NumberText} {c : Int} {s : Nat} {e : ℤ}

theorem digits_significant (ht : t.Loose) : Digits t.significant := fun d hd =>
  NumberAccumulator.digits_text ht d ((List.dropWhile_sublist _).subset hd)

/-- The first significant digit is one. -/
theorem significant_cons (h : t.significant ≠ []) : ∃ d rest, t.significant = d :: rest ∧ d ≠ 0 := by
  obtain ⟨d, rest, hcons⟩ := List.exists_cons_of_ne_nil h
  have hhead := List.head_dropWhile_not (fun d => decide (d = 0)) h
  refine ⟨d, rest, hcons, ?_⟩
  have hd : t.significant.head h = d := by
    simp only [hcons, List.head_cons]
  rw [← hd]
  exact of_decide_eq_false hhead

theorem magnitude_nonneg : 0 ≤ t.magnitude e := by
  have := DigitFraction.frac_nonneg t.significant
  unfold NumberText.magnitude
  positivity

/-- What a comparison sees, in magnitude and sign. -/
theorem seen_eq (width : Nat) : t.seen width = signOf t.negative *
    (frac (blank width t.significant) * 10 ^ ((t.significant.length : ℤ) +
      (cutExponent t.exponentValue - t.places))) := by
  show signOf t.negative * ofDigitsBig (blank width t.significant) * _ = _
  rw [ofDigitsBig_frac, length_blank, zpow_add₀ (by norm_num), zpow_natCast]
  ring

theorem ofDigitsBig_map (w : List Byte) : ofDigitsBig (w.map digitValue) = Decimal.value w := by
  induction w using List.reverseRecOn with
  | nil => rfl
  | append_singleton w b ih =>
    rw [List.map_append, List.map_singleton, ofDigitsBig_snoc, ih, Decimal.value_snoc]
    ring

theorem ofDigitsBig_dropWhile (l : List Nat) : ofDigitsBig (l.dropWhile fun d => decide (d = 0)) = ofDigitsBig l := by
  induction l with
  | nil => rfl
  | cons d l ih =>
    rw [List.dropWhile_cons]
    split
    · rename_i hd
      have hd : d = 0 := of_decide_eq_true hd
      rw [ih, hd, ofDigitsBig, ofDigitsBig, List.reverse_cons, Nat.ofDigits_append]
      simp
    · rfl

theorem value_eq : t.value = t.valueAt t.exponentValue := by
  have hdigits : (ofDigitsBig t.significant : ℚ) = (Decimal.value (t.integer ++ t.fraction.getD []) : Nat) := by
    rw [NumberText.significant, ofDigitsBig_dropWhile, NumberText.digits, ofDigitsBig_map]
  rw [ofDigitsBig_frac] at hdigits
  rw [NumberText.valueAt, NumberText.magnitude, zpow_add₀ (by norm_num), zpow_natCast, ← mul_assoc (frac _), hdigits,
    ← mul_assoc]
  rfl

theorem blank_short {width : Nat} {l : List Nat} (h : width ≤ 20) : blank width l = l := by
  refine List.ext_getElem (length_blank width l) (fun i h1 h2 => ?_)
  simp only [blank, List.getElem_mapIdx]
  rw [if_neg (by omega)]

/-- The digits left out are those from the twenty-first up to the width of the bound. -/
theorem frac_blank {width : Nat} (hw : 20 ≤ width) (l : List Nat) :
    frac (blank width l) = frac (l.take 20) + frac (l.drop width) / 10 ^ width := by
  have htake : (blank width l).take 20 = l.take 20 := by
    refine List.ext_getElem? fun i => ?_
    rw [List.getElem?_take, List.getElem?_take, blank, List.getElem?_mapIdx]
    split
    · cases l[i]? with
      | none => rfl
      | some d => rw [Option.map_some, if_neg (by omega)]
    · rfl
  have hdrop : (blank width l).drop width = l.drop width := by
    refine List.ext_getElem? fun i => ?_
    rw [List.getElem?_drop, List.getElem?_drop, blank, List.getElem?_mapIdx]
    cases l[width + i]? with
    | none => rfl
    | some d => rw [Option.map_some, if_neg (by omega)]
  have hgap : frac (((blank width l).take width).drop 20) = 0 := by
    refine DigitFraction.frac_eq_zero.2 fun d hd => ?_
    obtain ⟨i, hi⟩ := List.mem_iff_getElem?.1 hd
    rw [List.getElem?_drop, List.getElem?_take, blank, List.getElem?_mapIdx] at hi
    split at hi
    · obtain ⟨d', -, rfl⟩ := Option.map_eq_some_iff.1 hi
      rw [if_pos (by omega)]
    · cases hi
  rw [DigitFraction.frac_take_drop _ width, DigitFraction.frac_take_drop ((blank width l).take width) 20, hgap, hdrop,
    List.take_take, Nat.min_eq_left hw, htake]
  ring

/-- A bound of some digits, as a fraction and an exponent. -/
theorem bound_scientific {b : Nat} (hb : b ≠ 0) : Digits (u128DecimalDigits (trimScale b s).1) ∧
    1 / 10 ≤ frac (u128DecimalDigits (trimScale b s).1) ∧
    (b : ℚ) / 10 ^ s = frac (u128DecimalDigits (trimScale b s).1) *
      10 ^ (((u128DecimalDigits (trimScale b s).1).length : ℤ) - (trimScale b s).2) := by
  obtain ⟨htrim, -, -, hne⟩ := NumberAccumulator.trimScale_spec s b
  obtain ⟨hdigits, ⟨d, rest, hcons, hd⟩, hvalue⟩ := NumberAccumulator.u128DecimalDigits_spec (hne hb)
  refine ⟨hdigits, (NumberAccumulator.frac_bounds hdigits hcons hd).1, ?_⟩
  rw [← htrim, ← hvalue, zpow_sub₀ (by norm_num), zpow_natCast, zpow_natCast]
  ring

theorem boundWidth_zero : ∀ s : Nat, boundWidth 0 s = 0
  | 0 => by decide
  | s + 1 => by
    have ih := boundWidth_zero s
    unfold boundWidth at ih ⊢
    rwa [Int.natAbs_zero, trimScale, if_pos (Nat.zero_mod 10), Nat.zero_div]

theorem natAbs_ne_zero_of_wide (h : 20 < boundWidth c s) : c.natAbs ≠ 0 := by
  intro hzero
  rw [Int.natAbs_eq_zero.1 hzero, boundWidth_zero] at h
  exact absurd h (by decide)

/-- **A comparison with a bound goes by the literal, but for a bound that is hidden from its first digits.** -/
theorem seen_lt_iff (ht : t.Loose) : frac (blank (boundWidth c s) t.significant) *
      10 ^ ((t.significant.length : ℤ) + (e - t.places)) < (c.natAbs : ℚ) / 10 ^ s ↔
    t.magnitude e < (c.natAbs : ℚ) / 10 ^ s ∨ 20 < boundWidth c s ∧
      t.headMagnitude e < (c.natAbs : ℚ) / 10 ^ s ∧ (c.natAbs : ℚ) / 10 ^ s ≤ t.magnitude e := by
  unfold NumberText.magnitude NumberText.headMagnitude
  by_cases hw : 20 < boundWidth c s
  · obtain ⟨hb, hb0, hvalue⟩ := bound_scientific (s := s) (natAbs_ne_zero_of_wide hw)
    rw [hvalue]
    by_cases hnil : t.significant = []
    · rw [hnil]
      simp [blank, hw]
    · obtain ⟨d, rest, hcons, hd⟩ := significant_cons hnil
      have hl0 : 1 / 10 ≤ frac (t.significant.take 20) := by
        rw [hcons]
        exact DigitFraction.tenth_le_frac hd _
      rw [DigitFraction.gap_lt_iff (digits_significant ht) hb hw.le hl0 hb0 (frac_blank hw.le _)]
      simp only [hw, true_and]
  · rw [blank_short (by omega)]
    simp only [hw, false_and, or_false]

theorem seen_le_iff (ht : t.Loose) : frac (blank (boundWidth c s) t.significant) *
      10 ^ ((t.significant.length : ℤ) + (e - t.places)) ≤ (c.natAbs : ℚ) / 10 ^ s ↔
    t.magnitude e ≤ (c.natAbs : ℚ) / 10 ^ s ∨ 20 < boundWidth c s ∧
      (c.natAbs : ℚ) / 10 ^ s < t.magnitude e ∧ (t.headMagnitude e < (c.natAbs : ℚ) / 10 ^ s ∨
        t.headMagnitude e = (c.natAbs : ℚ) / 10 ^ s ∧ ∀ d ∈ t.significant.drop (boundWidth c s), d = 0) := by
  unfold NumberText.magnitude NumberText.headMagnitude
  by_cases hw : 20 < boundWidth c s
  · obtain ⟨hb, hb0, hvalue⟩ := bound_scientific (s := s) (natAbs_ne_zero_of_wide hw)
    rw [hvalue]
    by_cases hnil : t.significant = []
    · rw [hnil]
      have hpos : 0 ≤ frac (u128DecimalDigits (trimScale c.natAbs s).1) *
          10 ^ (((u128DecimalDigits (trimScale c.natAbs s).1).length : ℤ) - (trimScale c.natAbs s).2) := by
        have : 0 ≤ frac (u128DecimalDigits (trimScale c.natAbs s).1) := by linarith
        positivity
      simp [blank, frac, hpos]
    · obtain ⟨d, rest, hcons, hd⟩ := significant_cons hnil
      have hl0 : 1 / 10 ≤ frac (t.significant.take 20) := by
        rw [hcons]
        exact DigitFraction.tenth_le_frac hd _
      rw [DigitFraction.gap_le_iff (digits_significant ht) hb hw.le hl0 hb0 (frac_blank hw.le _)]
      simp only [hw, true_and]
      rfl
  · rw [blank_short (by omega)]
    simp only [hw, false_and, or_false]

/-- A check of a bound, `upper` or lower. -/
def passes (upper : Bool) (β x : ℚ) (exclusive : Bool) : Prop :=
  if upper then x < β ∨ exclusive = false ∧ x = β else β < x ∨ exclusive = false ∧ β = x

theorem passes_iff {upper exclusive : Bool} {β x : ℚ} : passes upper β x exclusive ↔
    if upper then (if exclusive then x < β else x ≤ β) else (if exclusive then ¬x ≤ β else ¬x < β) := by
  unfold passes
  cases upper <;> cases exclusive <;> simp [← le_iff_lt_or_eq]

/-- Of negative numbers the magnitudes are compared the other way round. -/
theorem passes_magnitude (hsign : t.negative = true ↔ c < 0) (upper exclusive : Bool) (x : ℚ) :
    passes upper ((c : ℚ) / 10 ^ s) (signOf t.negative * x) exclusive ↔
      passes (upper != t.negative) ((c.natAbs : ℚ) / 10 ^ s) x exclusive := by
  unfold passes
  cases hneg : t.negative with
  | true =>
    have hbound : (c : ℚ) / 10 ^ s = -((c.natAbs : ℚ) / 10 ^ s) := by
      rw [Nat.cast_natAbs, abs_of_neg (hsign.1 hneg)]
      push_cast
      ring
    rw [hbound]
    generalize (c.natAbs : ℚ) / 10 ^ s = B
    cases upper <;> simp [signOf, @eq_comm ℚ x]
  | false =>
    have hcneg : ¬c < 0 := fun h => by
      rw [hsign.2 h] at hneg
      cases hneg
    have hbound : (c : ℚ) / 10 ^ s = (c.natAbs : ℚ) / 10 ^ s := by
      rw [Nat.cast_natAbs, abs_of_nonneg (by omega)]
    cases upper <;> simp [hbound, signOf]

/-- Where the signs differ they decide. -/
theorem passes_sign (hsign : ¬(t.negative = true ↔ c < 0)) (upper exclusive : Bool) {x y : ℚ} (hx : 0 ≤ x) (hy : 0 ≤ y)
    (hzero : c = 0 → x = y) : passes upper ((c : ℚ) / 10 ^ s) (signOf t.negative * x) exclusive ↔
      passes upper ((c : ℚ) / 10 ^ s) (signOf t.negative * y) exclusive := by
  have hpow : (0 : ℚ) < 10 ^ s := by positivity
  by_cases hc : c = 0
  · rw [hzero hc]
  cases hneg : t.negative with
  | true =>
    have hcpos : 0 < c := by
      rw [hneg] at hsign
      simp only [true_iff] at hsign
      omega
    have hbound : 0 < (c : ℚ) / 10 ^ s := div_pos (Int.cast_pos.2 hcpos) hpow
    have hside : ∀ z : ℚ, 0 ≤ z → (passes upper ((c : ℚ) / 10 ^ s) (signOf true * z) exclusive ↔ upper = true) := by
      intro z hz
      have hlt : -z < (c : ℚ) / 10 ^ s := by linarith
      cases upper <;> simp [passes, signOf, hlt, hlt.ne', hlt.le]
    rw [hside x hx, hside y hy]
  | false =>
    have hcneg : c < 0 := by
      rw [hneg] at hsign
      simpa using hsign
    have hbound : (c : ℚ) / 10 ^ s < 0 := div_neg_of_neg_of_pos (Int.cast_lt_zero.2 hcneg) hpow
    have hside : ∀ z : ℚ, 0 ≤ z → (passes upper ((c : ℚ) / 10 ^ s) (signOf false * z) exclusive ↔ upper = false) := by
      intro z hz
      have hlt : (c : ℚ) / 10 ^ s < z := by linarith
      cases upper <;> simp [passes, signOf, hlt, hlt.ne', hlt.le]
    rw [hside x hx, hside y hy]

/-- **A check goes by the literal with its exponent stopped, unless its bound is hidden.** -/
theorem passes_seen (ht : t.Loose) (upper exclusive : Bool) :
    passes upper ((c : ℚ) / 10 ^ s) (t.seen (boundWidth c s)) exclusive ↔
      (passes upper ((c : ℚ) / 10 ^ s) (t.valueAt (cutExponent t.exponentValue)) exclusive ↔
        ¬t.Hides (cutExponent t.exponentValue) upper c s exclusive) := by
  have hlt := @seen_lt_iff t c s (cutExponent t.exponentValue) ht
  have hle := @seen_le_iff t c s (cutExponent t.exponentValue) ht
  have hx : 0 ≤ frac (blank (boundWidth c s) t.significant) *
      10 ^ ((t.significant.length : ℤ) + (cutExponent t.exponentValue - t.places)) := by
    have := DigitFraction.frac_nonneg (blank (boundWidth c s) t.significant)
    positivity
  rw [seen_eq, NumberText.valueAt]
  unfold NumberText.Hides
  by_cases hsign : t.negative = true ↔ c < 0
  · rw [passes_magnitude hsign, passes_magnitude hsign, passes_iff, passes_iff]
    generalize frac (blank (boundWidth c s) t.significant) * _ = x at hlt hle ⊢
    simp only [hsign, true_and]
    cases (upper != t.negative) <;> cases exclusive <;> simp only [Bool.false_eq_true, Bool.true_eq_false,
      if_true, if_false]
    · rw [hlt]
      grind
    · rw [hle]
      grind
    · rw [hle]
      grind
    · rw [hlt]
      grind
  · simp only [hsign, false_and, and_false, not_false_eq_true, iff_true]
    refine passes_sign hsign upper exclusive hx magnitude_nonneg fun hc => ?_
    rw [hc, boundWidth_zero, blank_zero]
    rfl

/-- A lower bound that is hidden is met, an upper one passed. -/
theorem passes_of_hides {upper exclusive : Bool} (h : t.Hides e upper c s exclusive) :
    passes upper ((c : ℚ) / 10 ^ s) (t.valueAt e) exclusive ↔ (upper != t.negative) = false := by
  obtain ⟨-, hsign, h⟩ := h
  rw [NumberText.valueAt, passes_magnitude hsign, passes_iff]
  revert h
  cases (upper != t.negative) <;> cases exclusive <;> simp only [Bool.false_eq_true, Bool.true_eq_false,
    if_true, if_false]
  · exact fun h => iff_of_true (not_lt.2 h.2) trivial
  · exact fun h => iff_of_true (not_le.2 h.1) trivial
  · exact fun h => iff_of_false (not_le.2 h.1) (by decide)
  · exact fun h => iff_of_false (not_lt.2 h.2) (by decide)

end Bound

/-! ## A plan -/

namespace NumberPlan

variable {plan : NumberPlan} {t : NumberText} {e : ℤ}

/-- What a plan asks beside its bounds. -/
def WithoutBounds (plan : NumberPlan) (x : ℚ) : Prop :=
  { plan with minimum := none, maximum := none }.Admits fun _ => x

/-- The bound, if there is one, is kept. -/
def BoundPasses (bound : Option (Int × Nat × Bool)) (upper : Bool) (reads : Nat → ℚ) : Prop :=
  ∀ m, bound = some m → passes upper ((m.1 : ℚ) / 10 ^ m.2.1) (reads (boundWidth m.1 m.2.1)) m.2.2

theorem admits_iff {reads : Nat → ℚ} : plan.Admits reads ↔
    plan.WithoutBounds (reads 0) ∧ BoundPasses plan.minimum false reads ∧ BoundPasses plan.maximum true reads := by
  constructor
  · rintro ⟨h1, h2, h3, h4⟩
    exact ⟨⟨h1, h2, fun _ _ _ h => (by cases h), fun _ _ _ h => (by cases h)⟩, fun m => h3 m.1 m.2.1 m.2.2,
      fun m => h4 m.1 m.2.1 m.2.2⟩
  · rintro ⟨⟨h1, h2, -, -⟩, h3, h4⟩
    exact ⟨h1, h2, fun c s exclusive => h3 (c, s, exclusive), fun c s exclusive => h4 (c, s, exclusive)⟩

theorem boundPasses_none {upper : Bool} {reads : Nat → ℚ} : BoundPasses none upper reads := fun _ h => by cases h

theorem boundPasses_some {m : Int × Nat × Bool} {upper : Bool} {reads : Nat → ℚ} : BoundPasses (some m) upper reads ↔
    passes upper ((m.1 : ℚ) / 10 ^ m.2.1) (reads (boundWidth m.1 m.2.1)) m.2.2 := by
  constructor
  · exact fun h => h m rfl
  · rintro h m' ⟨⟩
    exact h

theorem boundPasses_seen (ht : t.Loose) (bound : Option (Int × Nat × Bool)) (upper : Bool) :
    BoundPasses bound upper t.seen ↔ (BoundPasses bound upper (fun _ => t.valueAt (cutExponent t.exponentValue)) ↔
      ¬t.HidesBound (cutExponent t.exponentValue) upper bound) := by
  cases bound with
  | none =>
    have hnone : ¬t.HidesBound (cutExponent t.exponentValue) upper none := fun ⟨_, h, _⟩ => by cases h
    exact iff_of_true boundPasses_none (iff_of_true boundPasses_none hnone)
  | some m =>
    have hsome : t.HidesBound (cutExponent t.exponentValue) upper (some m) ↔
        t.Hides (cutExponent t.exponentValue) upper m.1 m.2.1 m.2.2 := by
      constructor
      · rintro ⟨m', h, hhides⟩
        cases h
        exact hhides
      · exact fun h => ⟨m, rfl, h⟩
    rw [boundPasses_some, boundPasses_some, hsome]
    exact passes_seen ht upper m.2.2

/-- A hidden bound is met or passed by its side. -/
theorem boundPasses_of_hides {bound : Option (Int × Nat × Bool)} {upper : Bool} (h : t.HidesBound e upper bound) :
    BoundPasses bound upper (fun _ => t.valueAt e) ↔ (upper != t.negative) = false := by
  obtain ⟨m, rfl, hhides⟩ := h
  rw [boundPasses_some]
  exact passes_of_hides hhides

/-- **What the checks see of a literal is the literal with its exponent stopped, unless just one bound is hidden.** -/
theorem admits_seen (ht : t.Loose) : plan.Admits t.seen ↔
    ((plan.Admits fun _ => t.valueAt (cutExponent t.exponentValue)) ↔
      ¬plan.Misled t (cutExponent t.exponentValue)) := by
  have hzero : t.seen 0 = t.valueAt (cutExponent t.exponentValue) := by
    rw [seen_eq, blank_zero]
    rfl
  have hdrop : ({ plan with minimum := none }.Admits fun _ => t.valueAt (cutExponent t.exponentValue)) ↔
      plan.WithoutBounds (t.valueAt (cutExponent t.exponentValue)) ∧
        BoundPasses plan.maximum true (fun _ => t.valueAt (cutExponent t.exponentValue)) := by
    rw [admits_iff]
    exact and_congr_right fun _ => and_iff_right boundPasses_none
  have hdrop' : ({ plan with maximum := none }.Admits fun _ => t.valueAt (cutExponent t.exponentValue)) ↔
      plan.WithoutBounds (t.valueAt (cutExponent t.exponentValue)) ∧
        BoundPasses plan.minimum false (fun _ => t.valueAt (cutExponent t.exponentValue)) := by
    rw [admits_iff]
    exact and_congr_right fun _ => and_iff_left boundPasses_none
  rw [admits_iff, admits_iff, boundPasses_seen ht, boundPasses_seen ht, Misled, hdrop, hdrop', hzero]
  by_cases hmin : t.HidesBound (cutExponent t.exponentValue) false plan.minimum <;>
    by_cases hmax : t.HidesBound (cutExponent t.exponentValue) true plan.maximum
  · -- the literal keeps just one of two hidden bounds, and the checks just the other
    have h := boundPasses_of_hides hmin
    have h' := boundPasses_of_hides hmax
    cases t.negative <;> grind
  · grind
  · grind
  · grind

/-! ### Exponents that are stopped -/

/-- A divisor of a number times a power of ten divides it times a power that has the divisor's length. -/
theorem dvd_mul_pow : ∀ (n c v k : Nat), 0 < c → c < 2 ^ n → c ∣ v * 10 ^ k → c ∣ v * 10 ^ n
  | 0, c, _, _, hpos, hlt, _ => absurd hlt (by omega)
  | n + 1, c, v, 0, _, _, h => h.trans ⟨10 ^ (n + 1), by ring⟩
  | n + 1, c, v, k + 1, hpos, hlt, h => by
    by_cases hcop : Nat.Coprime c 10
    · exact ((hcop.pow_right (k + 1)).dvd_of_dvd_mul_right h).mul_right _
    -- a prime of ten goes out of the divisor
    obtain ⟨p, hp, hpc, hpt⟩ := Nat.Prime.not_coprime_iff_dvd.1 hcop
    obtain ⟨c', rfl⟩ := hpc
    obtain ⟨q, hq⟩ := hpt
    have hc' : c' < 2 ^ n := by
      have := hp.two_le
      have := Nat.mul_le_mul_right c' this
      rw [pow_succ] at hlt
      omega
    have hstep : ∀ m, v * 10 ^ (m + 1) = p * (v * q * 10 ^ m) := by
      intro m
      rw [pow_succ]
      nth_rewrite 2 [hq]
      ring
    rw [hstep] at h ⊢
    exact Nat.mul_dvd_mul_left p (dvd_mul_pow n c' (v * q) k (Nat.pos_of_mul_pos_left hpos) hc'
      (Nat.dvd_of_mul_dvd_mul_left hp.pos h))

theorem dvd_mul_pow_size {c v k : Nat} (hc : 0 < c) (hk : c.size ≤ k) : c ∣ v * 10 ^ k ↔ c ∣ v * 10 ^ c.size := by
  refine ⟨dvd_mul_pow _ _ _ _ hc (Nat.lt_size_self c), fun h => h.trans
    (Nat.mul_dvd_mul_left v (Nat.pow_dvd_pow 10 hk))⟩

/-- Both exponents are as far out, on the same side. -/
def Beyond (e e' : ℤ) : Prop :=
  (exponentCut : ℤ) ≤ e ∧ (exponentCut : ℤ) ≤ e' ∨ e ≤ -(exponentCut : ℤ) ∧ e' ≤ -(exponentCut : ℤ)

theorem multiple_beyond (ht : t.Loose) (hlen : t.text.length ≤ u32Max) {e' : ℤ} (hbeyond : Beyond e e') {c s : Nat}
    (hc : 0 < c) (hreach : t.text.length + (s + c.size) ≤ exponentCut) :
    (∃ k : ℤ, t.valueAt e = k * (c / 10 ^ s)) ↔ ∃ k : ℤ, t.valueAt e' = k * (c / 10 ^ s) := by
  obtain ⟨core, zeros, hs, -⟩ := (feed_text ht hlen 1).digits
  have hroom := NumberAccumulator.length_text t
  have hle := hs.length_le
  have hdigits : t.digits.length = t.integer.length + (t.fraction.getD []).length := by
    rw [NumberText.digits, List.length_map, List.length_append]
  have hplaces : t.places = (t.fraction.getD []).length := rfl
  have hvalue : ∀ e, t.valueAt e = signOf t.negative * (ofDigitsBig core * 10 ^ (e - t.places + zeros)) := by
    intro e
    rw [NumberText.valueAt, NumberText.magnitude, zpow_add₀ (by norm_num), zpow_natCast, ← mul_assoc (frac _),
      ← ofDigitsBig_frac, NumberText.significant, hs.split, ofDigitsBig_zeros, zpow_add₀ (by norm_num) (e - t.places),
      zpow_natCast]
    push_cast
    ring
  by_cases hcore : core = []
  · have hnil : ∀ e, t.valueAt e = 0 := by
      intro e
      rw [hvalue, hcore]
      simp [ofDigitsBig]
    rw [hnil, hnil]
  have hiff : ∀ e, (∃ k : ℤ, t.valueAt e = k * (c / 10 ^ s)) ↔
      0 ≤ e - t.places + zeros + s ∧ c ∣ ofDigitsBig core * 10 ^ (e - t.places + zeros + s).toNat := by
    intro e
    rw [← @NumberAccumulator.multiple_iff _ _ (hs.not_dvd (NumberAccumulator.digits_text ht) hcore) t.negative]
    refine exists_congr fun k => ?_
    have hpow : (10 : ℚ) ^ s ≠ 0 := by positivity
    rw [hvalue, zpow_add₀ (by norm_num) _ (s : ℤ), zpow_natCast, ← mul_assoc, ← mul_div_assoc, eq_div_iff hpow,
      ← mul_assoc]
  have hsize := Nat.size_pos.2 hc
  rw [hiff, hiff]
  rcases hbeyond with ⟨h, h'⟩ | ⟨h, h'⟩
  · have hk : c.size ≤ (e - t.places + zeros + s).toNat := by omega
    have hk' : c.size ≤ (e' - t.places + zeros + s).toNat := by omega
    rw [dvd_mul_pow_size hc hk, dvd_mul_pow_size hc hk']
    exact and_congr_left fun _ => iff_of_true (by omega) (by omega)
  · exact iff_of_false (fun hj => by omega) (fun hj => by omega)

/-- A bound is far below or far above the literal, whichever of the two exponents it has. -/
theorem bound_beyond {c : Int} {s : Nat} (hc : c.natAbs ≤ 2 ^ 127) (ht : t.Loose) (hne : t.significant ≠ [])
    (hreach : t.text.length + (s + 39) < exponentCut) :
    ((exponentCut : ℤ) ≤ e → (c.natAbs : ℚ) / 10 ^ s < t.headMagnitude e) ∧
      (e ≤ -(exponentCut : ℤ) → c ≠ 0 → t.magnitude e < (c.natAbs : ℚ) / 10 ^ s) := by
  have hroom := NumberAccumulator.length_text t
  have hdigits : t.digits.length = t.integer.length + (t.fraction.getD []).length := by
    rw [NumberText.digits, List.length_map, List.length_append]
  have hle : t.significant.length ≤ t.digits.length := (List.dropWhile_sublist _).length_le
  have hplaces : t.places = (t.fraction.getD []).length := rfl
  have hpos := List.length_pos_of_ne_nil hne
  obtain ⟨d, rest, hcons, hd⟩ := significant_cons hne
  have hpow : (1 : ℚ) ≤ 10 ^ s := one_le_pow₀ (by norm_num)
  constructor
  · intro he
    have hfrac : 1 / 10 ≤ frac (t.significant.take 20) := by
      rw [hcons]
      exact DigitFraction.tenth_le_frac hd _
    have hsmall : (c.natAbs : ℚ) ≤ 2 ^ 127 := by exact_mod_cast hc
    have hexp : (10 : ℚ) ^ (40 : ℤ) ≤ 10 ^ ((t.significant.length : ℤ) + (e - t.places)) :=
      zpow_le_zpow_right₀ (by norm_num) (by omega)
    calc (c.natAbs : ℚ) / 10 ^ s ≤ c.natAbs := div_le_self (Nat.cast_nonneg _) hpow
      _ ≤ 2 ^ 127 := hsmall
      _ < 1 / 10 * 10 ^ (40 : ℤ) := by norm_num
      _ ≤ t.headMagnitude e := mul_le_mul hfrac hexp (by positivity) (le_trans (by norm_num) hfrac)
  · intro he hc0
    have hfrac := DigitFraction.frac_lt_one (digits_significant ht)
    have hone : (1 : ℚ) ≤ c.natAbs := by exact_mod_cast Int.natAbs_pos.2 hc0
    have hexp : (10 : ℚ) ^ ((t.significant.length : ℤ) + (e - t.places)) ≤ 10 ^ (-(s : ℤ)) :=
      zpow_le_zpow_right₀ (by norm_num) (by omega)
    have hstep : (0 : ℚ) < 10 ^ ((t.significant.length : ℤ) + (e - t.places)) := by positivity
    calc t.magnitude e < 1 * 10 ^ ((t.significant.length : ℤ) + (e - t.places)) := mul_lt_mul_of_pos_right hfrac hstep
      _ ≤ 10 ^ (-(s : ℤ)) := by rw [one_mul]; exact hexp
      _ = 1 / 10 ^ s := by rw [zpow_neg, zpow_natCast, one_div]
      _ ≤ (c.natAbs : ℚ) / 10 ^ s := by gcongr

theorem headMagnitude_le : t.headMagnitude e ≤ t.magnitude e := by
  have h := DigitFraction.frac_take_drop t.significant 20
  have hrest := DigitFraction.frac_nonneg (t.significant.drop 20)
  refine mul_le_mul_of_nonneg_right ?_ (by positivity)
  rw [h]
  exact le_add_of_nonneg_right (by positivity)

theorem not_hides_beyond {c : Int} {s : Nat} (hc : c.natAbs ≤ 2 ^ 127) (ht : t.Loose) {e' : ℤ} (hbeyond : Beyond e e')
    (hreach : t.text.length + (s + 39) < exponentCut) (upper exclusive : Bool) : ¬t.Hides e upper c s exclusive := by
  rintro ⟨hwide, -, h⟩
  have hc0 := natAbs_ne_zero_of_wide hwide
  have hle : t.headMagnitude e ≤ (c.natAbs : ℚ) / 10 ^ s ∧ (c.natAbs : ℚ) / 10 ^ s ≤ t.magnitude e := by
    split at h
    · exact ⟨h.1.le, h.2⟩
    · exact ⟨h.2.elim le_of_lt fun h => h.1.le, h.1.le⟩
  by_cases hne : t.significant = []
  · have hzero : t.magnitude e = 0 := by
      rw [NumberText.magnitude, hne]
      simp [frac]
    have hpos : 0 < (c.natAbs : ℚ) / 10 ^ s := by
      have : 0 < (c.natAbs : ℚ) := by exact_mod_cast Nat.pos_of_ne_zero hc0
      positivity
    linarith [hle.2]
  obtain ⟨habove, hbelow⟩ := @bound_beyond t e c s hc ht hne hreach
  rcases hbeyond with ⟨h, -⟩ | ⟨h, -⟩
  · exact absurd (habove h) (not_lt.2 hle.1)
  · exact absurd (hbelow h (Int.natAbs_ne_zero.1 hc0)) (not_lt.2 hle.2)

/-- A check goes by the side the number is on. -/
theorem passes_side {upper exclusive : Bool} {β x y : ℚ} (h : x < β ∧ y < β ∨ β < x ∧ β < y ∨ x = y) :
    passes upper β x exclusive ↔ passes upper β y exclusive := by
  rcases h with ⟨hx, hy⟩ | ⟨hx, hy⟩ | rfl
  · cases upper <;> simp [passes, hx, hy, hx.not_gt, hy.not_gt, hx.ne', hy.ne']
  · cases upper <;> simp [passes, hx, hy, hx.not_gt, hy.not_gt, hx.ne', hy.ne']
  · exact Iff.rfl

theorem passes_beyond {c : Int} {s : Nat} (hc : c.natAbs ≤ 2 ^ 127) (ht : t.Loose) {e' : ℤ} (hbeyond : Beyond e e')
    (hreach : t.text.length + (s + 39) < exponentCut) (upper exclusive : Bool) :
    passes upper ((c : ℚ) / 10 ^ s) (t.valueAt e) exclusive ↔
    passes upper ((c : ℚ) / 10 ^ s) (t.valueAt e') exclusive := by
  refine passes_side ?_
  by_cases hne : t.significant = []
  · refine Or.inr (Or.inr ?_)
    rw [NumberText.valueAt, NumberText.valueAt, NumberText.magnitude, NumberText.magnitude, hne]
    simp [frac]
  have hpos : ∀ e, 0 < t.magnitude e := by
    intro e
    obtain ⟨d, rest, hcons, hd⟩ := significant_cons hne
    have hfrac : 1 / 10 ≤ frac t.significant := by
      rw [hcons]
      exact DigitFraction.tenth_le_frac hd _
    have : 0 < frac t.significant := lt_of_lt_of_le (by norm_num) hfrac
    unfold NumberText.magnitude
    positivity
  have hcast : (c : ℚ) / 10 ^ s = (c.natAbs : ℚ) / 10 ^ s ∨ (c : ℚ) / 10 ^ s = -((c.natAbs : ℚ) / 10 ^ s) := by
    rcases le_or_gt 0 c with h | h
    · exact Or.inl (by rw [Nat.cast_natAbs, abs_of_nonneg h])
    · refine Or.inr ?_
      rw [Nat.cast_natAbs, abs_of_neg h]
      push_cast
      ring
  have hbound : 0 ≤ (c.natAbs : ℚ) / 10 ^ s := by positivity
  have hm := hpos e
  have hm' := hpos e'
  have hsign := NumberAccumulator.signOf_cases t.negative
  obtain ⟨habove, hbelow⟩ := @bound_beyond t e c s hc ht hne hreach
  obtain ⟨habove', hbelow'⟩ := @bound_beyond t e' c s hc ht hne hreach
  unfold NumberText.valueAt
  rcases hbeyond with ⟨h, h'⟩ | ⟨h, h'⟩
  · -- the bound lies between the number and its negative
    have hlt := lt_of_lt_of_le (habove h) headMagnitude_le
    have hlt' := lt_of_lt_of_le (habove' h') headMagnitude_le
    rcases hsign with hsign | hsign
    · rw [hsign]
      refine Or.inr (Or.inl ?_)
      rcases hcast with hcast | hcast <;> rw [hcast] <;> constructor <;> linarith
    · rw [hsign]
      refine Or.inl ?_
      rcases hcast with hcast | hcast <;> rw [hcast] <;> constructor <;> linarith
  · by_cases hzero : c = 0
    · rw [hzero, Int.cast_zero, zero_div]
      rcases hsign with hsign | hsign
      · rw [hsign]
        exact Or.inr (Or.inl ⟨by linarith, by linarith⟩)
      · rw [hsign]
        exact Or.inl ⟨by linarith, by linarith⟩
    · -- the number lies between the bound and its negative
      have hlt := hbelow h hzero
      have hlt' := hbelow' h' hzero
      rcases hcast with hcast | hcast
      · rw [hcast]
        refine Or.inl ?_
        rcases hsign with hsign | hsign <;> rw [hsign] <;> constructor <;> linarith
      · rw [hcast]
        refine Or.inr (Or.inl ?_)
        rcases hsign with hsign | hsign <;> rw [hsign] <;> constructor <;> linarith

theorem boundPasses_beyond {bound : Option (Int × Nat × Bool)} (ht : t.Loose) {e' : ℤ} (hbeyond : Beyond e e')
    (hreach : t.text.length + bound.elim 0 (fun m => m.2.1 + 39) < exponentCut)
    (hsmall : ∀ m, bound = some m → m.1.natAbs ≤ 2 ^ 127) (upper : Bool) :
    (BoundPasses bound upper (fun _ => t.valueAt e) ↔ BoundPasses bound upper (fun _ => t.valueAt e')) ∧
      ¬t.HidesBound e upper bound := by
  cases bound with
  | none => exact ⟨iff_of_true boundPasses_none boundPasses_none, fun ⟨_, h, _⟩ => by cases h⟩
  | some m =>
    have hm := hsmall m rfl
    refine ⟨?_, ?_⟩
    · rw [boundPasses_some, boundPasses_some]
      exact passes_beyond hm ht hbeyond hreach upper m.2.2
    · rintro ⟨m', h, hhides⟩
      cases h
      exact not_hides_beyond hm ht hbeyond hreach upper m.2.2 hhides

/-- **Where the exponent is in range the stop changes nothing.** -/
theorem admits_inRange (hplan : plan.Built) (ht : t.Loose) (hlen : t.text.length ≤ u32Max) (hrange : plan.InRange t) :
    ((plan.Admits fun _ => t.valueAt (cutExponent t.exponentValue)) ↔ plan.Admits fun _ => t.value) ∧
      (plan.Misled t (cutExponent t.exponentValue) ↔ plan.Misled t t.exponentValue) := by
  rw [value_eq]
  by_cases hcut : cutExponent t.exponentValue = t.exponentValue
  · rw [hcut]
    exact ⟨Iff.rfl, Iff.rfl⟩
  have hbeyond : Beyond (cutExponent t.exponentValue) t.exponentValue ∧
    Beyond t.exponentValue (cutExponent t.exponentValue) := by
    unfold Beyond cutExponent at *
    omega
  have hreach : t.text.length + plan.reach < exponentCut := by
    refine hrange.resolve_left fun h => hcut ?_
    unfold cutExponent
    omega
  unfold reach at hreach
  have hmin : ∀ m, plan.minimum = some m → m.1.natAbs ≤ 2 ^ 127 := fun m h => (hplan.minimum m.1 m.2.1 m.2.2 h).1
  have hmax : ∀ m, plan.maximum = some m → m.1.natAbs ≤ 2 ^ 127 := fun m h => (hplan.maximum m.1 m.2.1 m.2.2 h).1
  obtain ⟨hmin1, hmin2⟩ := boundPasses_beyond ht hbeyond.1 (by omega) hmin false
  obtain ⟨-, hmin3⟩ := boundPasses_beyond ht hbeyond.2 (by omega) hmin false
  obtain ⟨hmax1, hmax2⟩ := boundPasses_beyond ht hbeyond.1 (by omega) hmax true
  obtain ⟨-, hmax3⟩ := boundPasses_beyond ht hbeyond.2 (by omega) hmax true
  have hwithout : plan.WithoutBounds (t.valueAt (cutExponent t.exponentValue)) ↔
    plan.WithoutBounds (t.valueAt t.exponentValue) := by
    have hinteger := @multiple_beyond t _ ht hlen _ hbeyond.1 1 0 Nat.one_pos (by rw [Nat.size_one]; omega)
    simp only [Nat.cast_one, pow_zero, div_one, mul_one] at hinteger
    have hmultiple : ∀ c s, plan.multipleOf = some (c, s) →
        ((∃ k : ℤ, t.valueAt (cutExponent t.exponentValue) = k * (c / 10 ^ s)) ↔
          ∃ k : ℤ, t.valueAt t.exponentValue = k * (c / 10 ^ s)) := by
      intro c s h
      rw [h, Option.elim_some] at hreach
      dsimp only at hreach
      exact multiple_beyond ht hlen hbeyond.1 (hplan.multiple c s h).1 (by omega)
    constructor
    · rintro ⟨h1, h2, h3, h4⟩
      exact ⟨fun h => hinteger.1 (h1 h), fun c s h => (hmultiple c s h).1 (h2 c s h), fun _ _ _ h => (by cases h),
        fun _ _ _ h => (by cases h)⟩
    · rintro ⟨h1, h2, h3, h4⟩
      exact ⟨fun h => hinteger.2 (h1 h), fun c s h => (hmultiple c s h).2 (h2 c s h), fun _ _ _ h => (by cases h),
        fun _ _ _ h => (by cases h)⟩
  refine ⟨?_, iff_of_false ?_ ?_⟩
  · rw [admits_iff, admits_iff]
    exact and_congr hwithout (and_congr hmin1 hmax1)
  · rintro (⟨h, -⟩ | ⟨h, -⟩)
    · exact hmin2 h
    · exact hmax2 h
  · rintro (⟨h, -⟩ | ⟨h, -⟩)
    · exact hmin3 h
    · exact hmax3 h

end NumberPlan

open NumberPlan (admits_seen admits_inRange)

/-- The plan judges a literal as its exact value says, but for a literal whose exponent is stopped short, or from whose
first twenty digits one bound is hidden. -/
theorem accepts_iff {plan : NumberPlan} {t : NumberText} (hplan : plan.Built) (ht : t.Loose)
    (hlen : t.text.length ≤ u32Max) :
    numberAccepts (plan.feed t.text) plan = true ↔
      ((plan.Admits fun _ => t.valueAt (cutExponent t.exponentValue)) ↔
        ¬plan.Misled t (cutExponent t.exponentValue)) := by
  rw [numberAccepts_feed hplan ht hlen, admits_seen ht]

/-- **A plan is decided by the exact value**, iff the stop of the exponent changes its verdict just where a hidden bound
does; while the exponent is in range, iff the plan is not misled by a hidden bound.  A prefix of a literal that is
accepted, or should be, is refused only if it is empty and the plan's maximum is below zero. -/
theorem number_decided_iff {plan : NumberPlan} {t : NumberText} (hplan : plan.Built) (ht : t.Json)
    (hlen : t.text.length ≤ u32Max) :
    ((numberAccepts (plan.feed t.text) plan = true ↔ plan.Admits fun _ => t.value) ↔
      (((plan.Admits fun _ => t.valueAt (cutExponent t.exponentValue)) ↔ plan.Admits fun _ => t.value) ↔
        ¬plan.Misled t (cutExponent t.exponentValue))) ∧
    (plan.InRange t → ((numberAccepts (plan.feed t.text) plan = true ↔ plan.Admits fun _ => t.value) ↔
      ¬plan.Misled t t.exponentValue)) ∧
    (∀ p, p <+: t.text → p ≠ [] → (numberAccepts (plan.feed t.text) plan = true ∨ plan.Admits fun _ => t.value) →
      numberPrefixSignViable (plan.feed p) plan = true) ∧
    (numberPrefixSignViable (plan.feed []) plan = true ↔
      ∀ c s exclusive, plan.maximum = some (c, s, exclusive) → 0 ≤ c) := by
  have hof := feed_text ht.toLoose hlen plan.modulus
  have haccepts := accepts_iff hplan ht.toLoose hlen
  refine ⟨?_, fun hrange => ?_, fun p hp hne h => ?_, viable_nothing plan⟩
  · rw [haccepts]
    tauto
  · obtain ⟨hadmits, hmisled⟩ := admits_inRange hplan ht.toLoose hlen hrange
    rw [haccepts, hadmits, hmisled]
    tauto
  · have hneg := feed_negative ht.toLoose hlen plan.modulus hp hne
    rcases h with h | h
    · exact viable_of_accepts h (hneg.trans hof.negative.symm)
    · exact viable_of_admits h hneg

/-- The plan of `"minimum": 123456789012345678901`. -/
def longMinimum : NumberPlan := ⟨false, some (123456789012345678901, 0, false), none, none⟩

/-- The literal `123456789012345678901`. -/
def longLiteral : NumberText :=
  ⟨false, [0x31, 0x32, 0x33, 0x34, 0x35, 0x36, 0x37, 0x38, 0x39, 0x30, 0x31, 0x32, 0x33, 0x34, 0x35, 0x36, 0x37, 0x38,
    0x39, 0x30, 0x31], none, none⟩

theorem longMinimum_built : longMinimum.Built := by
  refine ⟨fun c s h => (by cases h), fun c s exclusive h => ?_, fun c s exclusive h => (by cases h)⟩
  cases h
  decide

theorem longLiteral_json : longLiteral.Json := by
  have hdigits : AllDigits longLiteral.integer := by
    simp [AllDigits, IsDigit, longLiteral]
  refine ⟨⟨⟨by decide, hdigits⟩, fun f h => (by cases h), fun mark sign digits h => (by cases h)⟩,
    Or.inr ⟨hdigits, _, _, rfl, by decide⟩⟩

theorem longLiteral_admitted : longMinimum.Admits fun _ => longLiteral.value := by
  have hvalue : longLiteral.value = 123456789012345678901 := by
    have hdigits : Decimal.value (longLiteral.integer ++ longLiteral.fraction.getD []) = 123456789012345678901 := rfl
    rw [NumberText.value, hdigits]
    norm_num [longLiteral, NumberText.exponentValue]
  refine ⟨fun h => (by cases h), fun c s h => (by cases h), fun c s exclusive h => ?_, fun c s exclusive h =>
    (by cases h)⟩
  cases h
  refine Or.inr ⟨rfl, ?_⟩
  rw [hvalue]
  norm_num

/-- The number `123456789012345678901` is refused by its own value as a minimum. -/
theorem number_decided_not_exact :
    ¬ ∀ (plan : NumberPlan) (t : NumberText), plan.Built → t.Json → t.text.length ≤ 1024 →
    (numberAccepts (plan.feed t.text) plan = true ↔ plan.Admits fun _ => t.value) := by
  intro h
  have hrefused : numberAccepts (longMinimum.feed longLiteral.text) longMinimum = false := by decide +kernel
  have haccepted := (h longMinimum longLiteral longMinimum_built longLiteral_json (by decide)).2 longLiteral_admitted
  rw [hrefused] at haccepted
  cases haccepted

/-- The literal `123456789012345678911`, which the same plan accepts: its first twenty digits tell it from
the minimum. -/
def tenMore : NumberText :=
  ⟨false, [0x31, 0x32, 0x33, 0x34, 0x35, 0x36, 0x37, 0x38, 0x39, 0x30, 0x31, 0x32, 0x33, 0x34, 0x35, 0x36, 0x37, 0x38,
    0x39, 0x31, 0x31], none, none⟩

theorem tenMore_json : tenMore.Json := by
  have hdigits : AllDigits tenMore.integer := by
    simp [AllDigits, IsDigit, tenMore]
  refine ⟨⟨⟨by decide, hdigits⟩, fun f h => (by cases h), fun mark sign digits h => (by cases h)⟩,
    Or.inr ⟨hdigits, _, _, rfl, by decide⟩⟩

theorem tenMore_clear : ¬longMinimum.Misled tenMore tenMore.exponentValue := by
  rintro (⟨⟨m, hm, -, -, hhides⟩, -⟩ | ⟨⟨m, hm, -⟩, -⟩)
  · cases hm
    have hlt : tenMore.headMagnitude tenMore.exponentValue < ((123456789012345678901 : ℕ) : ℚ) / 10 ^ 0 := hhides.1
    have hdigits : tenMore.significant = [1, 2, 3, 4, 5, 6, 7, 8, 9, 0, 1, 2, 3, 4, 5, 6, 7, 8, 9, 1, 1] := rfl
    rw [NumberText.headMagnitude, hdigits] at hlt
    norm_num [frac, tenMore, NumberText.exponentValue, NumberText.places] at hlt
  · cases hm

theorem number_decided_iff_long : numberAccepts (longMinimum.feed tenMore.text) longMinimum = true ∧
    longMinimum.Admits fun _ => tenMore.value := by
  have haccepts : numberAccepts (longMinimum.feed tenMore.text) longMinimum = true := by decide +kernel
  have hrange : longMinimum.InRange tenMore := Or.inl (by decide)
  exact ⟨haccepts, (((number_decided_iff longMinimum_built tenMore_json (by decide)).2.1 hrange).2 tenMore_clear).1
    haccepts⟩

end MaskForge
