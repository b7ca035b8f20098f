import Mathlib
/-!
# DigitFraction — digit strings read as fractions

`frac [d₁, d₂, …]` is `0.d₁d₂…`.  Two such fractions are compared at the first place where their digits differ, a
missing digit being zero (`compare_frac_drop`), so a comparison that stops early decides as much as what it has read.
-/
namespace DigitFraction

/-- The decimal fraction with these digits behind the point. -/
def frac : List Nat → ℚ
  | [] => 0
  | d :: l => (d + frac l) / 10

/-- Every entry is a decimal digit. -/
def Digits (l : List Nat) : Prop := ∀ d ∈ l, d < 10

theorem Digits.tail {d : Nat} {l : List Nat} (h : Digits (d :: l)) : Digits l :=
  fun e he => h e (List.mem_cons_of_mem _ he)

theorem Digits.drop {l : List Nat} (h : Digits l) (i : Nat) : Digits (l.drop i) :=
  fun d hd => h d (List.mem_of_mem_drop hd)

theorem Digits.getD {l : List Nat} (h : Digits l) (i : Nat) : l[i]?.getD 0 < 10 := by
  cases hi : l[i]? with
  | none => decide
  | some d => exact h d (List.mem_of_getElem? hi)

theorem frac_nonneg : ∀ l : List Nat, 0 ≤ frac l
  | [] => le_refl _
  | d :: l => by
    have ih := frac_nonneg l
    rw [frac]
    positivity

theorem frac_lt_one : ∀ {l : List Nat}, Digits l → frac l < 1
  | [], _ => by norm_num [frac]
  | d :: l, h => by
    have ih := frac_lt_one h.tail
    have hd : (d : ℚ) ≤ 9 := by exact_mod_cast Nat.le_of_lt_succ (h d List.mem_cons_self)
    rw [frac]
    linarith

/-- A fraction whose first digit is not zero. -/
theorem tenth_le_frac {d : Nat} (hd : d ≠ 0) (l : List Nat) : 1 / 10 ≤ frac (d :: l) := by
  have h1 : (1 : ℚ) ≤ d := by exact_mod_cast Nat.one_le_iff_ne_zero.2 hd
  have h2 := frac_nonneg l
  rw [frac]
  linarith

theorem frac_pos_of_mem : ∀ {l : List Nat} {d : Nat}, d ∈ l → d ≠ 0 → 0 < frac l
  | e :: l, d, hmem, hd => by
    have hl := frac_nonneg l
    rw [frac]
    rcases List.mem_cons.1 hmem with rfl | hmem
    · have h1 : (1 : ℚ) ≤ d := by exact_mod_cast Nat.one_le_iff_ne_zero.2 hd
      linarith
    · have ih := frac_pos_of_mem hmem hd
      positivity

theorem frac_replicate_zero : ∀ k : Nat, frac (List.replicate k 0) = 0
  | 0 => rfl
  | k + 1 => by
    rw [List.replicate_succ, frac, frac_replicate_zero k]
    norm_num

/-- The digit at a place, and the rest. -/
theorem frac_drop (l : List Nat) (i : Nat) : frac (l.drop i) = ((l[i]?.getD 0 : Nat) + frac (l.drop (i + 1))) / 10 := by
  by_cases hi : i < l.length
  · rw [List.drop_eq_getElem_cons hi, frac, List.getElem?_eq_getElem hi]
    rfl
  · rw [List.drop_eq_nil_of_le (by omega), List.drop_eq_nil_of_le (by omega), List.getElem?_eq_none (by omega)]
    norm_num [frac]

theorem frac_append (l : List Nat) (m : List Nat) : frac (l ++ m) = frac l + frac m / 10 ^ l.length := by
  induction l with
  | nil => simp [frac]
  | cons d l ih =>
    rw [List.cons_append, frac, ih, frac, List.length_cons, pow_succ]
    field_simp
    ring

/-- **The fraction of a number's digits** is the number moved behind the point. -/
theorem frac_digits_reverse : ∀ l : List Nat, frac l.reverse * 10 ^ l.length = ((Nat.ofDigits 10 l : Nat) : ℚ)
  | [] => by simp [frac]
  | d :: l => by
    have ih := frac_digits_reverse l
    have hpow : (10 : ℚ) ^ l.length ≠ 0 := by positivity
    rw [List.reverse_cons, frac_append, List.length_reverse, List.length_cons, Nat.ofDigits_cons, pow_succ]
    rw [Nat.cast_add, Nat.cast_mul, ← ih, frac, frac]
    field_simp
    push_cast
    ring

/-- **One place of a comparison.** -/
theorem compare_frac_drop {x y : List Nat} (hx : Digits x) (hy : Digits y) (i : Nat) :
    compare (frac (x.drop i)) (frac (y.drop i)) =
      match compare (x[i]?.getD 0) (y[i]?.getD 0) with
      | .eq => compare (frac (x.drop (i + 1))) (frac (y.drop (i + 1)))
      | o => o := by
  have hx0 := frac_nonneg (x.drop (i + 1))
  have hx1 := frac_lt_one (hx.drop (i + 1))
  have hy0 := frac_nonneg (y.drop (i + 1))
  have hy1 := frac_lt_one (hy.drop (i + 1))
  rw [frac_drop x i, frac_drop y i]
  rcases Nat.lt_trichotomy (x[i]?.getD 0) (y[i]?.getD 0) with hlt | heq | hgt
  · have hstep : ((x[i]?.getD 0 : Nat) : ℚ) + 1 ≤ (y[i]?.getD 0 : Nat) := by exact_mod_cast hlt
    rw [compare_lt_iff_lt.2 hlt]
    exact compare_lt_iff_lt.2 (by linarith)
  · rw [compare_eq_iff_eq.2 heq, heq]
    rcases lt_trichotomy (frac (x.drop (i + 1))) (frac (y.drop (i + 1))) with h | h | h
    · rw [compare_lt_iff_lt.2 h]
      exact compare_lt_iff_lt.2 (by linarith)
    · rw [compare_eq_iff_eq.2 h]
      exact compare_eq_iff_eq.2 (by rw [h])
    · rw [compare_gt_iff_gt.2 h]
      exact compare_gt_iff_gt.2 (by linarith)
  · have hstep : ((y[i]?.getD 0 : Nat) : ℚ) + 1 ≤ (x[i]?.getD 0 : Nat) := by exact_mod_cast hgt
    rw [compare_gt_iff_gt.2 hgt]
    exact compare_gt_iff_gt.2 (by linarith)

/-! ## Scientific notation -/

/-- Two comparisons agree when their orders do. -/
theorem compare_congr {α β : Type} [LinearOrder α] [LinearOrder β] {a b : α} {c d : β} (hlt : a < b ↔ c < d)
    (hgt : b < a ↔ d < c) : compare a b = compare c d := by
  rcases lt_trichotomy a b with h | h | h
  · rw [compare_lt_iff_lt.2 h, compare_lt_iff_lt.2 (hlt.1 h)]
  · have hcd : c = d := by
      rcases lt_trichotomy c d with h' | h' | h'
      · exact absurd (hlt.2 h') (by rw [h]; exact lt_irrefl b)
      · exact h'
      · exact absurd (hgt.2 h') (by rw [h]; exact lt_irrefl b)
    rw [compare_eq_iff_eq.2 h, compare_eq_iff_eq.2 hcd]
  · rw [compare_gt_iff_gt.2 h, compare_gt_iff_gt.2 (hgt.1 h)]

theorem compare_neg (x y : ℚ) : compare (-x) (-y) = (compare x y).swap := by
  rcases lt_trichotomy x y with h | h | h
  · rw [compare_lt_iff_lt.2 h]
    exact compare_gt_iff_gt.2 (neg_lt_neg h)
  · rw [compare_eq_iff_eq.2 h, h]
    exact compare_eq_iff_eq.2 rfl
  · rw [compare_gt_iff_gt.2 h]
    exact compare_lt_iff_lt.2 (neg_lt_neg h)

/-- **The greater exponent decides.** -/
theorem scaled_lt {x y : ℚ} {e f : ℤ} (hx : x < 1) (hy : 1 / 10 ≤ y) (h : e < f) : x * 10 ^ e < y * 10 ^ f := by
  have he : (0 : ℚ) < 10 ^ e := by positivity
  have hle : (10 : ℚ) ^ e ≤ 10 ^ (f - 1) := zpow_le_zpow_right₀ (by norm_num) (by omega)
  have hf : (10 : ℚ) ^ f = 10 * 10 ^ (f - 1) := by
    rw [← zpow_one_add₀ (by norm_num)]
    congr 1
    omega
  calc x * 10 ^ e < 1 * 10 ^ e := by gcongr
    _ = 10 ^ e := one_mul _
    _ ≤ 10 ^ (f - 1) := hle
    _ = 1 / 10 * 10 ^ f := by rw [hf]; ring
    _ ≤ y * 10 ^ f := by gcongr

/-- **Numbers in scientific notation are compared by exponent, then by digits.** -/
theorem compare_scaled {x y : ℚ} {e f : ℤ} (hx0 : 1 / 10 ≤ x) (hx1 : x < 1) (hy0 : 1 / 10 ≤ y) (hy1 : y < 1) :
    compare (x * 10 ^ e) (y * 10 ^ f) =
      match compare e f with
      | .eq => compare x y
      | o => o := by
  rcases lt_trichotomy e f with h | h | h
  · rw [compare_lt_iff_lt.2 h]
    exact compare_lt_iff_lt.2 (scaled_lt hx1 hy0 h)
  · subst h
    have he : (0 : ℚ) < 10 ^ e := by positivity
    rw [compare_eq_iff_eq.2 rfl]
    rcases lt_trichotomy x y with hxy | hxy | hxy
    · rw [compare_lt_iff_lt.2 hxy]
      exact compare_lt_iff_lt.2 (by gcongr)
    · rw [compare_eq_iff_eq.2 hxy, hxy]
      exact compare_eq_iff_eq.2 rfl
    · rw [compare_gt_iff_gt.2 hxy]
      exact compare_gt_iff_gt.2 (by gcongr)
  · rw [compare_gt_iff_gt.2 h]
    exact compare_gt_iff_gt.2 (scaled_lt hy1 hx0 h)

/-! ## Cut digits -/

theorem frac_eq_zero {l : List Nat} : frac l = 0 ↔ ∀ d ∈ l, d = 0 := by
  constructor
  · intro h d hd
    by_contra hne
    exact absurd (frac_pos_of_mem hd hne) (by rw [h]; exact lt_irrefl 0)
  · intro h
    rw [List.eq_replicate_iff.2 ⟨rfl, h⟩, frac_replicate_zero]

theorem frac_take_drop (l : List Nat) (n : Nat) : frac l = frac (l.take n) + frac (l.drop n) / 10 ^ n := by
  by_cases hn : n ≤ l.length
  · have h := frac_append (l.take n) (l.drop n)
    rwa [List.take_append_drop, List.length_take_of_le hn] at h
  · rw [List.take_of_length_le (by omega), List.drop_eq_nil_of_le (by omega)]
    simp [frac]

theorem frac_take_le (l : List Nat) {n m : Nat} (h : n ≤ m) : frac (l.take n) ≤ frac (l.take m) := by
  have hsplit := frac_take_drop (l.take m) n
  rw [List.take_take, Nat.min_eq_left h] at hsplit
  have := frac_nonneg ((l.take m).drop n)
  rw [hsplit]
  exact le_add_of_nonneg_right (by positivity)

/-- So many places make a whole number of the fraction. -/
theorem frac_whole {l : List Nat} {n : Nat} (h : l.length ≤ n) : ∃ k : Nat, frac l * 10 ^ n = k := by
  refine ⟨Nat.ofDigits 10 l.reverse * 10 ^ (n - l.length), ?_⟩
  have hdigits := frac_digits_reverse l.reverse
  rw [List.reverse_reverse, List.length_reverse] at hdigits
  have hpow : (10 : ℚ) ^ n = 10 ^ l.length * 10 ^ (n - l.length) := by
    rw [← pow_add, Nat.add_sub_of_le h]
  rw [hpow, ← mul_assoc, hdigits]
  push_cast
  rfl

section Gap
variable {l b : List Nat} {x : ℚ} {n : Nat} {e f : ℤ}

/-- **Digits left out up to the last place of a bound hide a bound that lies between the first digits and
the whole.** -/
theorem gap_hides (hl : Digits l) (hb : Digits b) (hn : n ≤ b.length) (hl0 : 1 / 10 ≤ frac (l.take n))
    (hb0 : 1 / 10 ≤ frac b) (hx : x = frac (l.take n) + frac (l.drop b.length) / 10 ^ b.length)
    (hlt : frac (l.take n) * 10 ^ e < frac b * 10 ^ f)
    (hle : frac b * 10 ^ f ≤ frac l * 10 ^ e) : x * 10 ^ e < frac b * 10 ^ f := by
  have htake : Digits (l.take n) := fun d hd => hl d (List.mem_of_mem_take hd)
  -- both have their first digit in the same place
  have hef : e = f := by
    rcases lt_trichotomy e f with h | h | h
    · exact absurd (scaled_lt (frac_lt_one hl) hb0 h) (not_lt.2 hle)
    · exact h
    · exact absurd (scaled_lt (frac_lt_one hb) hl0 h) (not_lt.2 hlt.le)
  subst hef
  have he : (0 : ℚ) < 10 ^ e := by positivity
  have hpow : (0 : ℚ) < 10 ^ b.length := by positivity
  obtain ⟨p, hp⟩ := frac_whole (l := l.take n) (n := b.length) (by rw [List.length_take]; omega)
  obtain ⟨q, hq⟩ := frac_whole (l := b) (Nat.le_refl _)
  have hpq : p + 1 ≤ q := by
    have h := mul_lt_mul_of_pos_right (lt_of_mul_lt_mul_right hlt he.le) hpow
    rw [hp, hq] at h
    exact_mod_cast h
  have hpq' : (p : ℚ) + 1 ≤ q := by exact_mod_cast hpq
  have hrest := frac_lt_one (hl.drop b.length)
  refine mul_lt_mul_of_pos_right (lt_of_mul_lt_mul_right ?_ hpow.le) he
  calc x * 10 ^ b.length = p + frac (l.drop b.length) := by rw [hx, add_mul, hp, div_mul_cancel₀ _ hpow.ne']
    _ < p + 1 := by linarith
    _ ≤ q := hpq'
    _ = frac b * 10 ^ b.length := hq.symm

theorem gap_le (hn : n ≤ b.length) (hx : x = frac (l.take n) + frac (l.drop b.length) / 10 ^ b.length) :
    frac (l.take n) ≤ x ∧ x ≤ frac l := by
  have hrest := frac_nonneg (l.drop b.length)
  have htake := frac_take_le l hn
  rw [hx, frac_take_drop l b.length]
  exact ⟨le_add_of_nonneg_right (by positivity), by linarith⟩

theorem gap_lt_iff (hl : Digits l) (hb : Digits b) (hn : n ≤ b.length) (hl0 : 1 / 10 ≤ frac (l.take n))
    (hb0 : 1 / 10 ≤ frac b) (hx : x = frac (l.take n) + frac (l.drop b.length) / 10 ^ b.length) :
    x * 10 ^ e < frac b * 10 ^ f ↔ frac l * 10 ^ e < frac b * 10 ^ f ∨
      frac (l.take n) * 10 ^ e < frac b * 10 ^ f ∧ frac b * 10 ^ f ≤ frac l * 10 ^ e := by
  have he : (0 : ℚ) < 10 ^ e := by positivity
  obtain ⟨hlow, hhigh⟩ := gap_le hn hx
  have hlow' := mul_le_mul_of_nonneg_right hlow he.le
  have hhigh' := mul_le_mul_of_nonneg_right hhigh he.le
  constructor
  · intro h
    by_cases hl' : frac l * 10 ^ e < frac b * 10 ^ f
    · exact Or.inl hl'
    · exact Or.inr ⟨hlow'.trans_lt h, not_lt.1 hl'⟩
  · rintro (h | ⟨hlt, hle⟩)
    · exact hhigh'.trans_lt h
    · exact gap_hides hl hb hn hl0 hb0 hx hlt hle

theorem gap_le_iff (hl : Digits l) (hb : Digits b) (hn : n ≤ b.length) (hl0 : 1 / 10 ≤ frac (l.take n))
    (hb0 : 1 / 10 ≤ frac b) (hx : x = frac (l.take n) + frac (l.drop b.length) / 10 ^ b.length) :
    x * 10 ^ e ≤ frac b * 10 ^ f ↔ frac l * 10 ^ e ≤ frac b * 10 ^ f ∨ frac b * 10 ^ f < frac l * 10 ^ e ∧
      (frac (l.take n) * 10 ^ e < frac b * 10 ^ f ∨
        frac (l.take n) * 10 ^ e = frac b * 10 ^ f ∧ ∀ d ∈ l.drop b.length, d = 0) := by
  have he : (0 : ℚ) < 10 ^ e := by positivity
  have hpow : (0 : ℚ) < 10 ^ b.length := by positivity
  obtain ⟨hlow, hhigh⟩ := gap_le hn hx
  have hlow' := mul_le_mul_of_nonneg_right hlow he.le
  have hhigh' := mul_le_mul_of_nonneg_right hhigh he.le
  constructor
  · intro h
    by_cases hl' : frac l * 10 ^ e ≤ frac b * 10 ^ f
    · exact Or.inl hl'
    refine Or.inr ⟨not_le.1 hl', (hlow'.trans h).lt_or_eq.imp_right fun heq => ⟨heq, frac_eq_zero.1 ?_⟩⟩
    have hzero : frac (l.drop b.length) / 10 ^ b.length ≤ 0 := by
      have := le_of_mul_le_mul_right (h.trans heq.ge) he
      linarith
    have hrest := frac_nonneg (l.drop b.length)
    have := (div_le_iff₀ hpow).1 hzero
    linarith
  · rintro (h | ⟨hlt, h | ⟨heq, hzero⟩⟩)
    · exact hhigh'.trans h
    · exact (gap_hides hl hb hn hl0 hb0 hx h hlt.le).le
    · rw [hx, frac_eq_zero.2 hzero, zero_div, add_zero]
      exact heq.le

end Gap

end DigitFraction
