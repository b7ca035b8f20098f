import MaskForge.Lib.Decimal
import MaskForge.Lib.RegexText
import MaskForge.Primitives
/-!
# IntegerRegex — the notation of the integers in a range

A range is cut by sign, by the number of digits and by the first digit where the ends part, and each piece is written
down. Every `u64` operation is checked: `none` stands for a panic.
-/
namespace MaskForge
namespace IntegerRegex

open Decimal (AllDigits Positive value digitByte digitValue IsDigit)
open RegexText (Means AltMeans range)

/-! ### The text -/

def toU64 (v : Int) : Option Nat := if 0 ≤ v ∧ v.toNat ≤ u64Max then some v.toNat else none

def mulU64 (a b : Nat) : Option Nat := if a * b ≤ u64Max then some (a * b) else none

def subU64 (a b : Nat) : Option Nat := if b ≤ a then some (a - b) else none

def pow10 : Nat → Option Nat
  | 0 => some 1
  | k + 1 => do mulU64 (← pow10 k) 10

/-- `num_digits`, counting `d` so far; a number has no more digits than its size. -/
def countDigits : Nat → Nat → Nat → Nat
  | 0, d, _ => d
  | fuel + 1, d, v => if 10 ≤ v then countDigits fuel (d + 1) (v / 10) else d

def numDigits (n : Nat) : Nat := countDigits n 1 n

def digit (d : Nat) : Option Char := if 0x30 + d ≤ 0xff then some (Char.ofNat (0x30 + d)) else none

def digitClass (lo hi : Nat) : Option (List Char) :=
  if lo = hi then do some [← digit lo]
  else do some ['[', ← digit lo, '-', ← digit hi, ']']

/-- `[0-9]{k}`, with what follows the number. -/
def counted (first : Char) (k : Nat) (close : List Char) : List Char :=
  '[' :: first :: '-' :: '9' :: ']' :: '{' :: (Nat.toDigits 10 k ++ close)

def anyDigits : Nat → List Char
  | 0 => []
  | 1 => ['[', '0', '-', '9', ']']
  | k => counted '0' k ['}']

def alt (parts : List (List Char)) : List Char :=
  if parts.length = 1 then parts.headD [] else '(' :: '?' :: ':' :: (List.intercalate ['|'] parts ++ [')'])

/-- The digit strings of a width from `lo` to `hi`. -/
def flrange : Nat → Nat → Nat → Option (List Char)
  | 0, lo, hi => if lo = 0 ∧ hi = 0 then some [] else none
  | len + 1, lo, hi => do
    if lo = 0 ∧ hi = (← subU64 (← pow10 (len + 1)) 1) then some (anyDigits (len + 1))
    else if len = 0 then digitClass lo hi
    else do
      let p ← pow10 len
      let ld := lo / p
      let hd := hi / p
      let lr := lo % p
      let hr := hi % p
      if ld = hd then some ((← digit ld) :: (← flrange len lr hr))
      else do
        let first := (← digit ld) :: (← flrange len lr (← subU64 p 1))
        let middle ← if ld + 2 ≤ hd then do some [(← digitClass (ld + 1) (← subU64 hd 1)) ++ anyDigits len] else some []
        let last := (← digit hd) :: (← flrange len 0 hr)
        some (alt (first :: middle ++ [last]))

def allDigits (d : Nat) : Option (List Char) :=
  if d = 1 then some ['[', '1', '-', '9', ']']
  else do some ('[' :: '1' :: '-' :: '9' :: ']' :: counted '0' (← subU64 d 1) ['}'])

/-- The numerals from `a` on; the longer ones stand first. -/
def posGe (a : Nat) : Option (List Char) := do
  let d := numDigits a
  let same ← flrange d a (← subU64 (← pow10 d) 1)
  let more := if d = 1 then ['[', '1', '-', '9', ']', '[', '0', '-', '9', ']', '+']
    else '[' :: '1' :: '-' :: '9' :: ']' :: counted '0' d [',', '}']
  some ('(' :: '?' :: ':' :: (more ++ '|' :: same ++ [')']))

/-- The numerals from `a` to `b`. -/
def posRange (a b : Nat) : Option (List Char) := do
  let da := numDigits a
  let db := numDigits b
  if da = db then flrange da a b
  else do
    let first ← flrange da a (← subU64 (← pow10 da) 1)
    let between ← (List.range' (da + 1) (db - (da + 1))).mapM allDigits
    let last ← flrange db (← pow10 (← subU64 db 1)) b
    some (alt (first :: between ++ [last]).reverse)

/-- The integers below zero, mapped to their magnitudes. -/
def negativePart (lo hi : Option Int) : Option (List (List Char)) :=
  let negHi := (hi.map fun h => min h (-1)).getD (-1)
  if negHi ≤ -1 ∧ lo.all (fun l => decide (l ≤ negHi)) = true then do
    let a ← toU64 (-negHi)
    match lo with
    | some l => some ['-' :: (← posRange a (← toU64 (-l)))]
    | none => some ['-' :: (← posGe a)]
  else some []

def zeroPart (lo hi : Option Int) : List (List Char) :=
  if lo.all (fun l => decide (l ≤ 0)) && hi.all (fun h => decide (0 ≤ h)) then [['0']] else []

def positivePart (lo hi : Option Int) : Option (List (List Char)) :=
  let posLo := (lo.map fun l => max l 1).getD 1
  if hi.all (fun h => decide (posLo ≤ h)) = true then
    match hi with
    | some h => do some [← posRange (← toU64 posLo) (← toU64 h)]
    | none => do some [← posGe (← toU64 posLo)]
  else some []

/-- `integer_regex`. -/
def integerRegex (lo hi : Option Int64) : Option (List Char) := do
  let lo := lo.map Int64.toInt
  let hi := hi.map Int64.toInt
  let negative ← negativePart lo hi
  let positive ← positivePart lo hi
  some ('(' :: '?' :: ':' :: (List.intercalate ['|'] (negative ++ zeroPart lo hi ++ positive) ++ [')']))

/-! ### No panic -/

/-- The powers of ten that fit `u64`. -/
theorem pow10_some : ∀ {k : Nat}, k ≤ 19 → pow10 k = some (10 ^ k)
  | 0, _ => rfl
  | k + 1, h => by
    have hfits : 10 ^ k * 10 ≤ u64Max := by
      rw [← Nat.pow_succ]
      exact Nat.le_trans (Nat.pow_le_pow_right (by decide) h) (by decide)
    rw [pow10, pow10_some (by omega)]
    simp only [Option.bind_eq_bind, Option.bind_some]
    rw [mulU64, if_pos hfits, Nat.pow_succ]

theorem subU64_some {a b : Nat} (h : b ≤ a) : subU64 a b = some (a - b) := if_pos h

theorem toU64_some {v : Int} (h : 0 ≤ v) (hle : v.toNat ≤ u64Max) : toU64 v = some v.toNat := if_pos ⟨h, hle⟩

theorem countDigits_spec : ∀ {fuel d v : Nat}, v ≤ fuel → d ≤ countDigits fuel d v ∧
    v < 10 ^ (countDigits fuel d v - d + 1) ∧ (0 < v → 10 ^ (countDigits fuel d v - d) ≤ v)
  | 0, d, v, h => by
    rw [countDigits, Nat.sub_self]
    exact ⟨Nat.le_refl _, by omega, by omega⟩
  | fuel + 1, d, v, h => by
    rw [countDigits]
    split
    · rename_i hv
      obtain ⟨hle, hlt, hge⟩ := @countDigits_spec fuel (d + 1) (v / 10) (by omega)
      have hsub : countDigits fuel (d + 1) (v / 10) - d = countDigits fuel (d + 1) (v / 10) - (d + 1) + 1 := by omega
      refine ⟨by omega, ?_, fun _ => ?_⟩
      · rw [hsub, Nat.pow_succ]
        omega
      · have hge := hge (by omega)
        rw [hsub, Nat.pow_succ]
        omega
    · rw [Nat.sub_self]
      exact ⟨Nat.le_refl _, by omega, by omega⟩

/-- **A number that is not zero lies between the powers of ten of its number of digits.** -/
theorem numDigits_spec {n : Nat} (h : 0 < n) : 1 ≤ numDigits n ∧ 10 ^ (numDigits n - 1) ≤ n ∧ n < 10 ^ numDigits n := by
  obtain ⟨hle, hlt, hge⟩ := @countDigits_spec n 1 n (Nat.le_refl _)
  have hsub : countDigits n 1 n - 1 + 1 = countDigits n 1 n := by omega
  rw [hsub] at hlt
  exact ⟨hle, hge h, hlt⟩

theorem numDigits_le {n k : Nat} (h : 0 < n) (hlt : n < 10 ^ k) : numDigits n ≤ k := by
  obtain ⟨_, hge, _⟩ := numDigits_spec h
  by_contra hk
  have hpow : 10 ^ k ≤ 10 ^ (numDigits n - 1) := Nat.pow_le_pow_right (by decide) (by omega)
  omega

/-! ### Digit strings of one width -/

/-- The digit strings of a width from `lo` to `hi`. -/
def numerals (len lo hi : Nat) : Language UInt8 := {w | w.length = len ∧ AllDigits w ∧ lo ≤ value w ∧ value w ≤ hi}

theorem mem_numerals {len lo hi : Nat} {w : List UInt8} :
    w ∈ numerals len lo hi ↔ w.length = len ∧ AllDigits w ∧ lo ≤ value w ∧ value w ≤ hi := Iff.rfl

/-- **A first digit from a range and the rest**: the strings over the rest's width whose first digit is in the range,
if every digit of it goes with every rest or it is one digit. -/
theorem numerals_mul {n a b lo hi : Nat} (hhi : hi < 10 ^ n) (h : a = b ∨ lo = 0 ∧ hi = 10 ^ n - 1) :
    numerals 1 a b * numerals n lo hi = numerals (n + 1) (a * 10 ^ n + lo) (b * 10 ^ n + hi) := by
  have hpos : 0 < 10 ^ n := Nat.pow_pos (by decide)
  ext w
  rw [Language.mem_mul]
  constructor
  · rintro ⟨u, ⟨hulen, hudigits, hua, hub⟩, v, ⟨hvlen, hvdigits, hvlo, hvhi⟩, rfl⟩
    refine ⟨by rw [List.length_append]; omega, Decimal.allDigits_append.2 ⟨hudigits, hvdigits⟩, ?_, ?_⟩
    · rw [Decimal.value_append, hvlen]
      exact Nat.add_le_add (Nat.mul_le_mul_right _ hua) hvlo
    · rw [Decimal.value_append, hvlen]
      exact Nat.add_le_add (Nat.mul_le_mul_right _ hub) hvhi
  · rintro ⟨hlen, hdigits, hlo, hhi'⟩
    cases w with
    | nil => cases hlen
    | cons x v =>
      have hvlen : v.length = n := Nat.succ.inj hlen
      have hvlt := Decimal.value_lt hdigits.tail
      rw [Decimal.value_cons, hvlen] at hlo hhi'
      rw [hvlen] at hvlt
      have hxa : a ≤ digitValue x := by
        by_contra hlt
        have hmul : (digitValue x + 1) * 10 ^ n ≤ a * 10 ^ n := Nat.mul_le_mul_right _ (by omega)
        rw [Nat.succ_mul] at hmul
        omega
      have hxb : digitValue x ≤ b := by
        by_contra hlt
        have hmul : (b + 1) * 10 ^ n ≤ digitValue x * 10 ^ n := Nat.mul_le_mul_right _ (by omega)
        rw [Nat.succ_mul] at hmul
        omega
      have hone : value [x] = digitValue x := by simp [value]
      refine ⟨[x], ⟨rfl, fun y hy => hdigits y (by rw [List.mem_singleton.1 hy]; exact List.mem_cons_self), by
        omega, by omega⟩, v,
        ⟨hvlen, hdigits.tail, ?_, ?_⟩, rfl⟩
      · rcases h with hab | ⟨hzero, _⟩
        · have hx : digitValue x = a := by omega
          rw [hx] at hlo
          omega
        · omega
      · rcases h with hab | ⟨_, hfull⟩
        · have hx : digitValue x = b := by omega
          rw [hx] at hhi'
          omega
        · omega

/-- Ranges that meet. -/
theorem numerals_add {n a b c : Nat} (hab : a ≤ b + 1) (hbc : b ≤ c) :
    numerals n a b + numerals n (b + 1) c = numerals n a c := by
  ext w
  rw [Language.mem_add, mem_numerals, mem_numerals, mem_numerals]
  constructor
  · rintro (⟨hlen, hdigits, hlo, hhi⟩ | ⟨hlen, hdigits, hlo, hhi⟩)
    · exact ⟨hlen, hdigits, hlo, by omega⟩
    · exact ⟨hlen, hdigits, by omega, hhi⟩
  · rintro ⟨hlen, hdigits, hlo, hhi⟩
    by_cases hb : value w ≤ b
    · exact .inl ⟨hlen, hdigits, hlo, hb⟩
    · exact .inr ⟨hlen, hdigits, by omega, hhi⟩

theorem numerals_zero : numerals 0 0 0 = 1 := by
  ext w
  rw [mem_numerals, Language.mem_one]
  constructor
  · rintro ⟨hlen, _⟩
    exact List.length_eq_zero_iff.1 hlen
  · rintro rfl
    exact ⟨rfl, Decimal.allDigits_nil, Nat.le_refl _, Nat.le_refl _⟩

theorem isLiteral_digit :
    ∀ {d : Nat}, d ≤ 9 → RegexText.isLiteral (Char.ofNat (0x30 + d)) = true ∧ (Char.ofNat (0x30 + d)).toNat = 0x30 + d ∧
    digit d = some (Char.ofNat (0x30 + d)) := by
  intro d hd
  interval_cases d <;> decide

/-- A bracket of digits. -/
theorem range_digits {a b : Nat} (hb : b ≤ 9) (ha : a ≤ 9) :
    (range (Char.ofNat (0x30 + a)) (Char.ofNat (0x30 + b))).matches' = numerals 1 a b := by
  obtain ⟨_, haNat, _⟩ := isLiteral_digit ha
  obtain ⟨_, hbNat, _⟩ := isLiteral_digit hb
  ext w
  rw [RegexText.mem_range (by rw [hbNat]; omega), haNat, hbNat, mem_numerals]
  constructor
  · rintro ⟨x, rfl, hlo, hhi⟩
    have hx : IsDigit x := by
      unfold IsDigit
      omega
    refine ⟨rfl, Decimal.allDigits_cons.2 ⟨hx, Decimal.allDigits_nil⟩, ?_, ?_⟩
    · rw [Decimal.value_cons, digitValue]
      simp
      omega
    · rw [Decimal.value_cons, digitValue]
      simp
      omega
  · rintro ⟨hlen, hdigits, hlo, hhi⟩
    obtain ⟨x, rfl⟩ := List.length_eq_one_iff.1 hlen
    have hx := hdigits.head
    unfold IsDigit at hx
    rw [Decimal.value_cons, digitValue] at hlo hhi
    simp at hlo hhi
    exact ⟨x, rfl, by omega, by omega⟩

theorem digit_range {d : Nat} (hd : d ≤ 9) :
    ({[UInt8.ofNat (Char.ofNat (0x30 + d)).toNat]} : Language UInt8) = numerals 1 d d := by
  obtain ⟨_, hNat, _⟩ := isLiteral_digit hd
  have hbyte : (UInt8.ofNat (0x30 + d)).toNat = 0x30 + d := by rw [UInt8.toNat_ofNat', Nat.mod_eq_of_lt (by omega)]
  rw [← range_digits hd hd]
  ext w
  rw [RegexText.mem_range (by rw [hNat]; omega), hNat]
  constructor
  · rintro rfl
    exact ⟨_, rfl, by rw [hbyte], by rw [hbyte]⟩
  · rintro ⟨b, rfl, hlo, hhi⟩
    have hb : b = UInt8.ofNat (0x30 + d) := UInt8.toNat_inj.1 (by rw [hbyte]; omega)
    rw [hb]
    rfl

/-! ### What the pieces mean -/

theorem means_digit {d : Nat} (hd : d ≤ 9) : ∃ c, digit d = some c ∧ Means [c] (numerals 1 d d) := by
  obtain ⟨hliteral, _, hdigit⟩ := isLiteral_digit hd
  exact ⟨_, hdigit, by rw [← digit_range hd]; exact RegexText.means_literal hliteral⟩

theorem means_digitClass {lo hi : Nat} (hle : lo ≤ hi) (hhi : hi ≤ 9) :
    ∃ s, digitClass lo hi = some s ∧ Means s (numerals 1 lo hi) := by
  unfold digitClass
  by_cases heq : lo = hi
  · subst heq
    obtain ⟨c, hc, hmeans⟩ := means_digit hhi
    exact ⟨[c], by rw [if_pos rfl, hc]; rfl, hmeans⟩
  · obtain ⟨hloLit, _, hlo⟩ := isLiteral_digit (Nat.le_trans hle hhi)
    obtain ⟨hhiLit, _, hhi'⟩ := isLiteral_digit hhi
    refine ⟨['[', _, '-', _, ']'], by rw [if_neg heq, hlo, hhi']; rfl, ?_⟩
    rw [← range_digits hhi (Nat.le_trans hle hhi)]
    exact RegexText.means_range hloLit hhiLit

theorem numerals_pow : ∀ k, numerals 1 0 9 ^ k = numerals k 0 (10 ^ k - 1)
  | 0 => by rw [pow_zero, Nat.pow_zero, Nat.sub_self, numerals_zero]
  | k + 1 => by
    have hpos : 0 < 10 ^ k := Nat.pow_pos (by decide)
    rw [pow_succ', numerals_pow k, numerals_mul (by omega) (.inr ⟨rfl, rfl⟩)]
    congr 1
    · omega
    · rw [Nat.pow_succ]
      omega

/-- All the strings of a width. -/
theorem means_anyDigits (k : Nat) : Means (anyDigits k) (numerals k 0 (10 ^ k - 1)) := by
  rw [← numerals_pow]
  unfold anyDigits
  split
  · rw [pow_zero]
    exact Means.nil
  · rw [pow_one, ← range_digits (by decide) (by decide)]
    exact RegexText.means_range (by decide) (by decide)
  · rw [← range_digits (by decide) (by decide)]
    exact RegexText.means_range_exactly (by decide) (by decide) _

/-- **Alternatives written together.** -/
theorem means_alt {parts : List (List Char × Language UInt8)} (hne : parts ≠ []) (h : ∀ p ∈ parts, Means p.1 p.2) :
    Means (alt (parts.map Prod.fst)) (parts.map Prod.snd).sum := by
  unfold alt
  split
  · rename_i hone
    rw [List.length_map] at hone
    obtain ⟨p, rfl⟩ := List.length_eq_one_iff.1 hone
    simpa using h p List.mem_cons_self
  · exact (RegexText.altMeans_join hne h).group

/-- A digit and then a text. -/
theorem means_digit_cons {d n lo hi : Nat} (hd : d ≤ 9) (hhi : hi < 10 ^ n) {s : List Char}
    (hs : Means s (numerals n lo hi)) :
    ∃ c, digit d = some c ∧ Means (c :: s) (numerals (n + 1) (d * 10 ^ n + lo) (d * 10 ^ n + hi)) := by
  obtain ⟨c, hc, hmeans⟩ := means_digit hd
  refine ⟨c, hc, ?_⟩
  rw [← numerals_mul hhi (.inl rfl)]
  exact hmeans.append hs

/-- **The digit strings of a width in a range.** -/
theorem means_flrange : ∀ {len lo hi : Nat}, len ≤ 18 → lo ≤ hi → hi < 10 ^ (len + 1) →
    ∃ s, flrange (len + 1) lo hi = some s ∧ Means s (numerals (len + 1) lo hi)
  | len, lo, hi, hlen, hle, hlt => by
    have hpos : 0 < 10 ^ len := Nat.pow_pos (by decide)
    have hpow : (10 : Nat) ^ (len + 1) = 10 ^ len * 10 := Nat.pow_succ ..
    rw [flrange, pow10_some (by omega)]
    simp only [Option.bind_eq_bind, Option.bind_some]
    rw [subU64_some (Nat.pow_pos (by decide)), Option.bind_some]
    by_cases hfull : lo = 0 ∧ hi = 10 ^ (len + 1) - 1
    · rw [if_pos hfull]
      obtain ⟨rfl, rfl⟩ := hfull
      exact ⟨_, rfl, means_anyDigits _⟩
    · rw [if_neg hfull]
      by_cases hzero : len = 0
      · subst hzero
        rw [if_pos rfl]
        exact means_digitClass hle (by omega)
      · obtain ⟨len, rfl⟩ : ∃ k, len = k + 1 := ⟨len - 1, by omega⟩
        rw [if_neg hzero, pow10_some (by omega), Option.bind_some]
        generalize hp : 10 ^ (len + 1) = p at *
        obtain ⟨hld, hhd, hlo, hhi, hlr, hhr⟩ : lo / p ≤ hi / p ∧ hi / p ≤ 9 ∧ lo = lo / p * p + lo % p ∧
          hi = hi / p * p + hi % p ∧
            lo % p < p ∧ hi % p < p := by
          refine ⟨Nat.div_le_div_right hle, ?_, (Nat.div_add_mod' lo p).symm, (Nat.div_add_mod' hi p).symm,
            Nat.mod_lt _ hpos, Nat.mod_lt _ hpos⟩
          rw [Nat.le_iff_lt_add_one, Nat.div_lt_iff_lt_mul hpos]
          omega
        generalize lo / p = ld at *
        generalize hi / p = hd at *
        generalize lo % p = lr at *
        generalize hi % p = hr at *
        by_cases hsame : ld = hd
        · rw [if_pos hsame]
          obtain ⟨s, hs, hmeans⟩ := @means_flrange len lr hr (by omega) (by rw [hsame] at hlo; omega)
            (by rw [hp]; exact hhr)
          obtain ⟨c, hc, hmeans⟩ := means_digit_cons (d := ld) (by omega) (by rw [hp]; exact hhr) hmeans
          rw [hp, ← hlo, hsame, ← hhi] at hmeans
          exact ⟨c :: s, by rw [hc, hs]; rfl, hmeans⟩
        · rw [if_neg hsame, subU64_some hpos]
          have hfullRest : p - 1 < p := by omega
          obtain ⟨s₁, hs₁, hfirst⟩ := @means_flrange len lr (p - 1) (by omega) (by omega) (by rw [hp]; exact hfullRest)
          obtain ⟨s₃, hs₃, hlast⟩ := @means_flrange len 0 hr (by omega) (Nat.zero_le _) (by rw [hp]; exact hhr)
          obtain ⟨c₁, hc₁, hfirst⟩ := means_digit_cons (d := ld) (by omega) (by rw [hp]; exact hfullRest) hfirst
          obtain ⟨c₃, hc₃, hlast⟩ := means_digit_cons (d := hd) hhd (by rw [hp]; exact hhr) hlast
          rw [hp, ← hlo] at hfirst
          rw [hp, ← hhi] at hlast
          simp only [hc₁, hs₁, hc₃, hs₃, Option.bind_some]
          have hldp : (ld + 1) * p = ld * p + p := Nat.succ_mul _ _
          by_cases hmiddle : ld + 2 ≤ hd
          · obtain ⟨s₂, hs₂, hclass⟩ := @means_digitClass (ld + 1) (hd - 1) (by omega) (by omega)
            have hany := means_anyDigits (len + 1)
            rw [hp] at hany
            have hmid := hclass.append hany
            rw [numerals_mul (by rw [hp]; exact hfullRest) (.inr ⟨rfl, by rw [hp]⟩), hp] at hmid
            obtain ⟨k, rfl⟩ : ∃ k, hd = k + 1 := ⟨hd - 1, by omega⟩
            have hkp : (k + 1) * p = k * p + p := Nat.succ_mul _ _
            have hk : (ld + 1) * p ≤ k * p := Nat.mul_le_mul_right _ (by omega)
            rw [if_pos hmiddle, subU64_some (show 1 ≤ k + 1 by omega)]
            simp only [Option.bind_some, hs₂]
            have hall : ∀ q ∈ [(c₁ :: s₁, numerals (len + 1 + 1) lo (ld * p + (p - 1))),
                (s₂ ++ anyDigits (len + 1), numerals (len + 1 + 1) ((ld + 1) * p + 0) (k * p + (p - 1))),
                (c₃ :: s₃, numerals (len + 1 + 1) ((k + 1) * p + 0) hi)], Means q.1 q.2 := by
              simp only [List.mem_cons, List.not_mem_nil, or_false, forall_eq_or_imp, forall_eq]
              exact ⟨hfirst, hmid, hlast⟩
            refine ⟨_, rfl, ?_⟩
            have hparts := means_alt (List.cons_ne_nil _ _) hall
            simp only [List.map_cons, List.map_nil, List.sum_cons, List.sum_nil, add_zero] at hparts
            rw [hkp, show k * p + p = k * p + (p - 1) + 1 by omega, numerals_add (by omega) (by omega), hldp,
              show ld * p + p = ld * p + (p - 1) + 1 by omega, numerals_add (by omega) (by omega)] at hparts
            exact hparts
          · obtain rfl : hd = ld + 1 := by omega
            rw [if_neg hmiddle]
            have hall : ∀ q ∈ [(c₁ :: s₁, numerals (len + 1 + 1) lo (ld * p + (p - 1))),
                (c₃ :: s₃, numerals (len + 1 + 1) ((ld + 1) * p + 0) hi)], Means q.1 q.2 := by
              simp only [List.mem_cons, List.not_mem_nil, or_false, forall_eq_or_imp, forall_eq]
              exact ⟨hfirst, hlast⟩
            refine ⟨_, rfl, ?_⟩
            have hparts := means_alt (List.cons_ne_nil _ _) hall
            simp only [List.map_cons, List.map_nil, List.sum_cons, List.sum_nil, add_zero] at hparts
            rw [hldp, show ld * p + p = ld * p + (p - 1) + 1 by omega, numerals_add (by omega) (by omega)] at hparts
            exact hparts

/-! ### Numerals -/

/-- The numerals without leading zero from `a` to `b`, or from `a` on. -/
def positives (a : Nat) (b : Option Nat) : Language UInt8 :=
  {w | Positive w ∧ a ≤ value w ∧ ∀ h, b = some h → value w ≤ h}

theorem mem_positives {a : Nat} {b : Option Nat} {w : List UInt8} :
    w ∈ positives a b ↔ Positive w ∧ a ≤ value w ∧ ∀ h, b = some h → value w ≤ h := Iff.rfl

/-- From a power of ten on, the digit strings of a width have no leading zero. -/
theorem mem_numerals_positive {d a b : Nat} (ha : 10 ^ d ≤ a) {w : List UInt8} :
    w ∈ numerals (d + 1) a b ↔ Positive w ∧ w.length = d + 1 ∧ a ≤ value w ∧ value w ≤ b := by
  rw [mem_numerals]
  constructor
  · rintro ⟨hlen, hdigits, hlo, hhi⟩
    exact ⟨Decimal.positive_of_le hdigits (by omega) (by rw [hlen]; exact Nat.le_trans ha hlo), hlen, hlo, hhi⟩
  · rintro ⟨hpos, hlen, hlo, hhi⟩
    exact ⟨hlen, hpos.1, hlo, hhi⟩

/-- The numerals of one width. -/
theorem means_allDigits (d : Nat) :
    ∃ s, allDigits (d + 1) = some s ∧ Means s (numerals (d + 1) (10 ^ d) (10 ^ (d + 1) - 1)) := by
  have hpos : 0 < 10 ^ d := Nat.pow_pos (by decide)
  have hpow : (10 : Nat) ^ (d + 1) = 10 ^ d * 10 := Nat.pow_succ ..
  have hfirst : Means ['[', '1', '-', '9', ']'] (numerals 1 1 9) := by
    rw [← range_digits (by decide) (by decide)]
    exact RegexText.means_range (by decide) (by decide)
  unfold allDigits
  by_cases hd : d = 0
  · subst hd
    exact ⟨_, rfl, hfirst⟩
  · rw [if_neg (by omega), subU64_some (Nat.le_add_left 1 d), Nat.add_sub_cancel]
    refine ⟨_, rfl, ?_⟩
    have hrest : Means (counted '0' d ['}']) (numerals d 0 (10 ^ d - 1)) := by
      rw [← numerals_pow, ← range_digits (by decide) (by decide)]
      exact RegexText.means_range_exactly (by decide) (by decide) _
    have hall := hfirst.append hrest
    rw [numerals_mul (by omega) (.inr ⟨rfl, rfl⟩), Nat.one_mul, Nat.add_zero, show 9 * 10 ^ d + (10 ^ d - 1) =
      10 ^ (d + 1) - 1 by omega] at hall
    exact hall

theorem means_bands :
    ∀ {ds : List Nat}, ∃ parts : List (List Char × Language UInt8), (ds.map (· + 1)).mapM allDigits =
    some (parts.map Prod.fst) ∧
    (∀ p ∈ parts, Means p.1 p.2) ∧ parts.map Prod.snd = ds.map fun d => numerals (d + 1) (10 ^ d) (10 ^ (d + 1) - 1)
  | [] => ⟨[], rfl, fun _ h => absurd h List.not_mem_nil, rfl⟩
  | d :: ds => by
    obtain ⟨s, hs, hmeans⟩ := means_allDigits d
    obtain ⟨parts, hparts, hall, hsnd⟩ := @means_bands ds
    refine ⟨(s, _) :: parts, ?_, fun p hp => ?_, by rw [List.map_cons, List.map_cons, hsnd]⟩
    · rw [List.map_cons, List.mapM_cons, hs, hparts]
      rfl
    · rcases List.mem_cons.1 hp with rfl | hp
      · exact hmeans
      · exact hall p hp

/-- **The numerals from `a` to `b`**, by their number of digits. -/
theorem means_posRange {a b : Nat} (ha : 0 < a) (hab : a ≤ b) (hb : b < 10 ^ 19) :
    ∃ s, posRange a b = some s ∧ Means s (positives a (some b)) := by
  obtain ⟨hda, hdaLo, hdaHi⟩ := numDigits_spec ha
  obtain ⟨hdb, hdbLo, hdbHi⟩ := numDigits_spec (Nat.lt_of_lt_of_le ha hab)
  have hdb19 := numDigits_le (Nat.lt_of_lt_of_le ha hab) hb
  unfold posRange
  dsimp only
  generalize numDigits a = da at *
  generalize numDigits b = db at *
  obtain ⟨da, rfl⟩ : ∃ k, da = k + 1 := ⟨da - 1, by omega⟩
  obtain ⟨db, rfl⟩ : ∃ k, db = k + 1 := ⟨db - 1, by omega⟩
  rw [Nat.add_sub_cancel] at hdaLo hdbLo
  have hlength : ∀ {w : List UInt8}, Positive w → a ≤ value w → value w ≤ b → da + 1 ≤ w.length ∧
    w.length ≤ db + 1 := by
    intro w hw hlo hhi
    obtain ⟨hwlo, hwhi, hwlen⟩ := hw.bounds
    constructor
    · by_contra hlt
      have hpow : (10 : Nat) ^ w.length ≤ 10 ^ da := Nat.pow_le_pow_right (by decide) (by omega)
      omega
    · by_contra hlt
      have hpow : (10 : Nat) ^ (db + 1) ≤ 10 ^ (w.length - 1) := Nat.pow_le_pow_right (by decide) (by omega)
      omega
  by_cases hsame : da = db
  · subst hsame
    obtain ⟨s, hs, hmeans⟩ := means_flrange (by omega) hab hdbHi
    refine ⟨s, by rw [if_pos rfl, hs], ?_⟩
    have hset : numerals (da + 1) a b = positives a (some b) := by
      ext w
      rw [mem_numerals_positive hdaLo, mem_positives]
      constructor
      · rintro ⟨hpos, _, hlo, hhi⟩
        exact ⟨hpos, hlo, fun h heq => by cases heq; exact hhi⟩
      · rintro ⟨hpos, hlo, hhi⟩
        have hlen := hlength hpos hlo (hhi b rfl)
        exact ⟨hpos, by omega, hlo, hhi b rfl⟩
    rw [← hset]
    exact hmeans
  · have hlt : da < db := by
      by_contra hge
      have hpow : (10 : Nat) ^ (db + 1) ≤ 10 ^ da := Nat.pow_le_pow_right (by decide) (by omega)
      omega
    have hposA : 0 < 10 ^ (da + 1) := Nat.pow_pos (by decide)
    obtain ⟨s₁, hs₁, hfirst⟩ := @means_flrange da a (10 ^ (da + 1) - 1) (by omega) (by omega) (by omega)
    obtain ⟨s₃, hs₃, hlast⟩ := @means_flrange db (10 ^ db) b (by omega) hdbLo hdbHi
    obtain ⟨bands, hbands, hband, hsnd⟩ := @means_bands (List.range' (da + 1) (db - (da + 1)))
    have hrange : List.range' (da + 1 + 1) (db + 1 - (da + 1 + 1)) =
      (List.range' (da + 1) (db - (da + 1))).map (· + 1) := by
      rw [show db + 1 - (da + 1 + 1) = db - (da + 1) by omega]
      exact List.range'_succ_left
    rw [if_neg (by omega), pow10_some (by omega), hrange, hbands, subU64_some (Nat.le_add_left 1 db),
      Nat.add_sub_cancel]
    simp only [Option.bind_eq_bind, Option.bind_some]
    rw [subU64_some (by omega), pow10_some (by omega)]
    simp only [Option.bind_some, hs₁, hs₃]
    refine ⟨_, rfl, ?_⟩
    have hall : ∀ q ∈ ((s₁, numerals (da + 1) a (10 ^ (da + 1) - 1)) :: bands ++
      [(s₃, numerals (db + 1) (10 ^ db) b)]).reverse, Means q.1 q.2 := by
      intro q hq
      rw [List.mem_reverse, List.mem_append, List.mem_cons, List.mem_singleton] at hq
      rcases hq with (rfl | hq) | rfl
      · exact hfirst
      · exact hband q hq
      · exact hlast
    have hparts := means_alt (by simp) hall
    have hset : ((((s₁, numerals (da + 1) a (10 ^ (da + 1) - 1)) :: bands ++
      [(s₃, numerals (db + 1) (10 ^ db) b)]).reverse.map Prod.snd).sum :
        Language UInt8) = positives a (some b) := by
      ext w
      rw [RegexText.mem_sum, mem_positives]
      simp only [List.map_reverse, List.mem_reverse, List.map_append, List.map_cons, List.map_nil, hsnd,
        List.mem_append, List.mem_cons, List.mem_map, List.mem_range'_1, List.not_mem_nil, or_false]
      constructor
      · rintro ⟨L, (rfl | ⟨d, hd, rfl⟩) | rfl, hw⟩
        · obtain ⟨hpos, _, hlo, hhi⟩ := (mem_numerals_positive hdaLo).1 hw
          have hpow : (10 : Nat) ^ (da + 1) ≤ 10 ^ db := Nat.pow_le_pow_right (by decide) (by omega)
          exact ⟨hpos, hlo, fun h heq => by cases heq; omega⟩
        · obtain ⟨hpos, _, hlo, hhi⟩ := (mem_numerals_positive (Nat.le_refl _)).1 hw
          have hpow₁ : (10 : Nat) ^ (da + 1) ≤ 10 ^ d := Nat.pow_le_pow_right (by decide) (by omega)
          have hpow₂ : (10 : Nat) ^ (d + 1) ≤ 10 ^ db := Nat.pow_le_pow_right (by decide) (by omega)
          exact ⟨hpos, by omega, fun h heq => by cases heq; omega⟩
        · obtain ⟨hpos, _, hlo, hhi⟩ := (mem_numerals_positive (Nat.le_refl _)).1 hw
          have hpow : (10 : Nat) ^ (da + 1) ≤ 10 ^ db := Nat.pow_le_pow_right (by decide) (by omega)
          exact ⟨hpos, by omega, fun h heq => by cases heq; exact hhi⟩
      · rintro ⟨hpos, hlo, hhi⟩
        have hhi := hhi b rfl
        obtain ⟨hlen₁, hlen₂⟩ := hlength hpos hlo hhi
        obtain ⟨hwlo, hwhi, hwlen⟩ := hpos.bounds
        by_cases hfirst : w.length = da + 1
        · refine ⟨_, .inl (.inl rfl), (mem_numerals_positive hdaLo).2 ⟨hpos, hfirst, hlo, ?_⟩⟩
          rw [hfirst] at hwhi
          omega
        · by_cases hlast : w.length = db + 1
          · rw [hlast, Nat.add_sub_cancel] at hwlo
            exact ⟨_, .inr rfl, (mem_numerals_positive (Nat.le_refl _)).2 ⟨hpos, hlast, hwlo, hhi⟩⟩
          · have hd : w.length - 1 + 1 = w.length := by omega
            refine ⟨_, .inl (.inr ⟨w.length - 1, by omega, rfl⟩),
              (mem_numerals_positive (Nat.le_refl _)).2 ⟨hpos, hd.symm, hwlo, ?_⟩⟩
            rw [hd]
            omega
    rw [hset] at hparts
    simpa using hparts

open scoped Computability in
/-- At least so many digits. -/
theorem mem_digits_atLeast {k : Nat} {w : List UInt8} :
    w ∈ numerals 1 0 9 ^ k * (numerals 1 0 9)∗ ↔ AllDigits w ∧ k ≤ w.length := by
  have hdigit : ∀ {x : UInt8}, IsDigit x → [x] ∈ numerals 1 0 9 := by
    intro x hx
    have hlt := Decimal.digitValue_lt hx
    refine ⟨rfl, Decimal.allDigits_cons.2 ⟨hx, Decimal.allDigits_nil⟩, Nat.zero_le _, ?_⟩
    rw [Decimal.value_cons]
    simp
    omega
  rw [numerals_pow, Language.mem_mul]
  constructor
  · rintro ⟨u, ⟨hulen, hudigits, _⟩, v, hv, rfl⟩
    obtain ⟨l, rfl, hl⟩ := Language.mem_kstar.1 hv
    have hvdigits : AllDigits l.flatten := by
      intro x hx
      obtain ⟨y, hy, hx⟩ := List.mem_flatten.1 hx
      exact (hl y hy).2.1 x hx
    exact ⟨Decimal.allDigits_append.2 ⟨hudigits, hvdigits⟩, by rw [List.length_append]; omega⟩
  · rintro ⟨hdigits, hlen⟩
    have hsplit : AllDigits (w.take k) ∧ AllDigits (w.drop k) := by
      rw [← Decimal.allDigits_append, List.take_append_drop]
      exact hdigits
    have htake : (w.take k).length = k := by rw [List.length_take]; omega
    refine ⟨w.take k, ⟨htake, hsplit.1, Nat.zero_le _, ?_⟩, w.drop k, ?_, List.take_append_drop k w⟩
    · have hlt := Decimal.value_lt hsplit.1
      rw [htake] at hlt
      omega
    · refine Language.mem_kstar.2 ⟨(w.drop k).map fun x => [x], ?_, fun y hy => ?_⟩
      · rw [← List.flatMap_def, List.flatMap_singleton']
      · obtain ⟨x, hx, rfl⟩ := List.mem_map.1 hy
        exact hdigit (hsplit.2 x hx)

/-- **The numerals from `a` on.** -/
theorem means_posGe {a : Nat} (ha : 0 < a) (hlt : a < 10 ^ 19) :
    ∃ s, posGe a = some s ∧ Means s (positives a none) := by
  obtain ⟨hd, hlo, hhi⟩ := numDigits_spec ha
  have hd19 := numDigits_le ha hlt
  unfold posGe
  dsimp only
  generalize numDigits a = d at *
  obtain ⟨d, rfl⟩ : ∃ k, d = k + 1 := ⟨d - 1, by omega⟩
  rw [Nat.add_sub_cancel] at hlo
  obtain ⟨same, hsame, hmeans⟩ := @means_flrange d a (10 ^ (d + 1) - 1) (by omega) (by omega) (by omega)
  rw [pow10_some hd19]
  simp only [Option.bind_eq_bind, Option.bind_some]
  rw [subU64_some (Nat.pow_pos (by decide))]
  simp only [Option.bind_some, hsame]
  refine ⟨_, rfl, ?_⟩
  have hfirst : Means ['[', '1', '-', '9', ']'] (numerals 1 1 9) := by
    rw [← range_digits (by decide) (by decide)]
    exact RegexText.means_range (by decide) (by decide)
  have hmore : Means (if d + 1 = 1 then ['[', '1', '-', '9', ']', '[', '0', '-', '9', ']', '+']
      else '[' :: '1' :: '-' :: '9' :: ']' :: counted '0' (d + 1) [',', '}'])
      (numerals 1 1 9 * (numerals 1 0 9 ^ (d + 1) * KStar.kstar (numerals 1 0 9))) := by
    split
    · rename_i hone
      rw [hone, pow_one, ← @range_digits 0 9 (by decide) (by decide)]
      exact hfirst.append (RegexText.means_range_plus (by decide) (by decide))
    · rw [← @range_digits 0 9 (by decide) (by decide)]
      exact hfirst.append (RegexText.means_range_atLeast (by decide) (by decide) _)
  have hgroup := (AltMeans.more hmore (.one hmeans)).group
  have hset : numerals 1 1 9 * (numerals 1 0 9 ^ (d + 1) * KStar.kstar (numerals 1 0 9)) + numerals (d + 1) a
    (10 ^ (d + 1) - 1) =
      positives a none := by
    ext w
    rw [Language.mem_add, mem_numerals_positive hlo, mem_positives, Language.mem_mul]
    constructor
    · rintro (⟨u, hu, v, hv, rfl⟩ | ⟨hpos, _, hlo, _⟩)
      · obtain ⟨hvdigits, hvlen⟩ := mem_digits_atLeast.1 hv
        obtain ⟨hupos, hulen, _, _⟩ := (mem_numerals_positive (d := 0) (Nat.le_refl _)).1 hu
        obtain ⟨hudigits, x, y, rfl, hx⟩ := hupos
        have hpos : Positive (x :: y ++ v) := ⟨Decimal.allDigits_append.2 ⟨hudigits, hvdigits⟩, x, y ++ v, rfl, hx⟩
        have hbound := hpos.bounds.1
        have hpow : (10 : Nat) ^ (d + 1) ≤ 10 ^ ((x :: y ++ v).length - 1) :=
          Nat.pow_le_pow_right (by decide) (by rw [List.length_append]; omega)
        exact ⟨hpos, by omega, fun h heq => by cases heq⟩
      · exact ⟨hpos, hlo, fun h heq => by cases heq⟩
    · rintro ⟨hpos, hle, _⟩
      obtain ⟨hwlo, hwhi, hwlen⟩ := hpos.bounds
      by_cases hlen : w.length = d + 1
      · exact .inr ⟨hpos, hlen, hle, by rw [hlen] at hwhi; omega⟩
      · refine .inl ?_
        have hge : d + 1 < w.length := by
          by_contra hle'
          have hpow : (10 : Nat) ^ w.length ≤ 10 ^ d := Nat.pow_le_pow_right (by decide) (by omega)
          omega
        obtain ⟨hdigits, x, v, rfl, hx⟩ := hpos
        rw [List.length_cons] at hge
        refine ⟨[x], ?_, v, mem_digits_atLeast.2 ⟨hdigits.tail, by omega⟩, rfl⟩
        have hxlt := Decimal.digitValue_lt hdigits.head
        have hone : Positive [x] := ⟨Decimal.allDigits_cons.2 ⟨hdigits.head, Decimal.allDigits_nil⟩, x, [], rfl, hx⟩
        have hvalue : value [x] = digitValue x := by simp [value]
        exact (mem_numerals_positive (d := 0) (Nat.le_refl _)).2 ⟨hone, rfl, hone.pos, by omega⟩
  rw [← hset]
  simpa using hgroup

/-! ### The integers -/

/-- A canonical literal: `0`, or a numeral without leading zero and perhaps a sign. -/
def CanonicalInteger (w : List Byte) : Prop := w = [0x30] ∨ ∃ d, Positive d ∧ (w = d ∨ w = 0x2d :: d)

/-- The integer a literal denotes. -/
def integerValue : List Byte → Int
  | 0x2d :: d => -(value d : Int)
  | w => value w

theorem integerValue_negative (d : List Byte) : integerValue (0x2d :: d) = -(value d : Int) := rfl

theorem integerValue_positive {d : List Byte} (h : AllDigits d) : integerValue d = value d := by
  unfold integerValue
  split
  · exact absurd h.head (by decide)
  · rfl

/-- Every integer has a canonical literal. -/
theorem exists_canonical (n : Int) : ∃ w, CanonicalInteger w ∧ integerValue w = n := by
  have hnumeral : ∀ k : Nat, 0 < k → ∃ d, Positive d ∧ value d = k := by
    intro k hk
    obtain ⟨hd, hlo, hhi⟩ := numDigits_spec hk
    have hvalue : value (Decimal.padded (numDigits k) k) = k := by rw [Decimal.value_padded, Nat.mod_eq_of_lt hhi]
    refine ⟨_, Decimal.positive_of_le (Decimal.allDigits_padded _ _) ?_ ?_, hvalue⟩
    · rw [Decimal.length_padded]
      exact hd
    · rw [Decimal.length_padded, hvalue]
      exact hlo
  rcases Int.lt_trichotomy n 0 with hneg | rfl | hpos
  · obtain ⟨d, hd, hvalue⟩ := hnumeral n.natAbs (by omega)
    exact ⟨0x2d :: d, .inr ⟨d, hd, .inr rfl⟩, by rw [integerValue_negative, hvalue]; omega⟩
  · exact ⟨[0x30], .inl rfl, rfl⟩
  · obtain ⟨d, hd, hvalue⟩ := hnumeral n.natAbs (by omega)
    exact ⟨d, .inr ⟨d, hd, .inl rfl⟩, by rw [integerValue_positive hd.1, hvalue]; omega⟩

/-- A sign before a numeral. -/
theorem means_negative {s : List Char} {a : Nat} {b : Option Nat} (h : Means s (positives a b)) :
    ∃ L : Language UInt8, Means ('-' :: s) L ∧
    ∀ w, w ∈ L ↔ ∃ d, w = 0x2d :: d ∧ d ∈ positives a b := by
  refine ⟨_, (RegexText.means_literal (c := '-') (by decide)).append h, fun w => ?_⟩
  rw [Language.mem_mul]
  constructor
  · rintro ⟨u, hu, d, hd, rfl⟩
    have hu : u = [0x2d] := hu
    exact ⟨d, by rw [hu]; rfl, hd⟩
  · rintro ⟨d, rfl, hd⟩
    exact ⟨[0x2d], rfl, d, hd, rfl⟩

/-- The range as it was given. -/
def Within (lo hi : Option Int) (n : Int) : Prop := (∀ l, lo = some l → l ≤ n) ∧ ∀ h, hi = some h → n ≤ h

/-- **One alternative of the range**: what it is written as, and when. -/
structure Alternative (parts : Option (List (List Char))) (holds : List UInt8 → Prop) : Prop where
  written : ∃ ps : List (List Char × Language UInt8), parts = some (ps.map Prod.fst) ∧ (∀ p ∈ ps, Means p.1 p.2) ∧
    ∀ w, (∃ p ∈ ps, w ∈ p.2) ↔ holds w

theorem Alternative.none {parts : Option (List (List Char))} {holds : List UInt8 → Prop} (h : parts = some [])
    (hnone : ∀ w, ¬ holds w) : Alternative parts holds :=
  ⟨[], h, fun _ h => absurd h List.not_mem_nil, fun w => ⟨fun ⟨_, h, _⟩ => absurd h List.not_mem_nil,
    fun h => absurd h (hnone w)⟩⟩

theorem Alternative.one {parts : Option (List (List Char))} {holds : List UInt8 → Prop} {s : List Char}
    {L : Language UInt8}
    (h : parts = some [s]) (hmeans : Means s L) (hholds : ∀ w, w ∈ L ↔ holds w) : Alternative parts holds :=
  ⟨[(s, L)], h, fun p hp => by rw [List.mem_singleton.1 hp]; exact hmeans, fun w => by simp [hholds w]⟩

/-- What an `i64` can be. -/
def InI64 (v : Option Int) : Prop := ∀ n, v = some n → -(2 ^ 63) ≤ n ∧ n < 2 ^ 63

theorem inI64 (v : Option Int64) : InI64 (v.map Int64.toInt) := by
  intro n hn
  obtain ⟨x, _, rfl⟩ := Option.map_eq_some_iff.1 hn
  exact ⟨Int64.le_toInt x, Int64.toInt_lt x⟩

section
variable {lo hi : Option Int} (hlo : InI64 lo) (hhi : InI64 hi)

include hlo hhi in
theorem negativePart_alternative :
    Alternative (negativePart lo hi) fun w => ∃ d, Positive d ∧ w = 0x2d :: d ∧ Within lo hi (-(value d : Int)) := by
  unfold negativePart
  dsimp only
  obtain ⟨negHi, hnegHi, hle, hge, hiff⟩ : ∃ negHi : Int, (hi.map fun h => min h (-1)).getD (-1) = negHi ∧ negHi ≤ -1 ∧
    -(2 ^ 63) ≤ negHi ∧
      ∀ n : Int, n ≤ -1 → (n ≤ negHi ↔ ∀ h, hi = some h → n ≤ h) := by
    cases hi with
    | none => exact ⟨-1, rfl, by omega, by omega, fun n hn => ⟨fun _ h heq => (by cases heq), fun _ => hn⟩⟩
    | some h =>
      have hbound := hhi h rfl
      refine ⟨min h (-1), rfl, by omega, by omega, fun n hn => ⟨fun hn' x heq => (by cases heq; omega), fun hn' => ?_⟩⟩
      have := hn' h rfl
      omega
  rw [hnegHi]
  have ha : toU64 (-negHi) = some (-negHi).toNat := toU64_some (by omega) (by unfold u64Max; omega)
  by_cases hpresent : lo.all (fun l => decide (l ≤ negHi)) = true
  · rw [if_pos ⟨hle, hpresent⟩, ha]
    simp only [Option.bind_eq_bind, Option.bind_some]
    cases lo with
    | none =>
      obtain ⟨s, hs, hmeans⟩ := @means_posGe (-negHi).toNat (by omega) (by omega)
      obtain ⟨L, hL, hmem⟩ := means_negative hmeans
      refine .one (by rw [hs]; rfl) hL fun w => ?_
      rw [hmem]
      constructor
      · rintro ⟨d, rfl, hd, hle, _⟩
        exact ⟨d, hd, rfl, fun l heq => (by cases heq), (hiff _ (by have := hd.pos; omega)).1 (by omega)⟩
      · rintro ⟨d, hd, rfl, _, hupper⟩
        have hbelow := (hiff (-(value d : Int)) (by have := hd.pos; omega)).2 hupper
        exact ⟨d, rfl, hd, by omega, fun h heq => by cases heq⟩
    | some l =>
      have hl := hlo l rfl
      have hlneg : l ≤ negHi := by simpa using hpresent
      obtain ⟨s, hs, hmeans⟩ := @means_posRange (-negHi).toNat (-l).toNat (by omega) (by omega) (by omega)
      obtain ⟨L, hL, hmem⟩ := means_negative hmeans
      dsimp only
      rw [toU64_some (v := -l) (by omega) (by unfold u64Max; omega)]
      refine .one (by rw [Option.bind_some, hs]; rfl) hL fun w => ?_
      rw [hmem]
      constructor
      · rintro ⟨d, rfl, hd, hle, hupper⟩
        have hupper := hupper _ rfl
        exact ⟨d, hd, rfl, fun x heq => (by cases heq; omega), (hiff _ (by have := hd.pos; omega)).1 (by omega)⟩
      · rintro ⟨d, hd, rfl, hlower, hupper⟩
        have hbelow := (hiff (-(value d : Int)) (by have := hd.pos; omega)).2 hupper
        have habove := hlower l rfl
        exact ⟨d, rfl, hd, by omega, fun h heq => by cases heq; omega⟩
  · rw [if_neg fun h => hpresent h.2]
    refine .none rfl ?_
    rintro w ⟨d, hd, rfl, hlower, hupper⟩
    cases lo with
    | none => exact hpresent rfl
    | some l =>
      have hbelow := (hiff (-(value d : Int)) (by have := hd.pos; omega)).2 hupper
      have habove := hlower l rfl
      exact hpresent (by simp; omega)

include hlo hhi in
theorem positivePart_alternative :
    Alternative (positivePart lo hi) fun w => Positive w ∧ Within lo hi (value w : Int) := by
  unfold positivePart
  dsimp only
  obtain ⟨posLo, hposLo, hge, hlt, hiff⟩ : ∃ posLo : Int, (lo.map fun l => max l 1).getD 1 = posLo ∧ 1 ≤ posLo ∧
    posLo < 2 ^ 63 ∧
      ∀ n : Int, 1 ≤ n → (posLo ≤ n ↔ ∀ l, lo = some l → l ≤ n) := by
    cases lo with
    | none => exact ⟨1, rfl, by omega, by omega, fun n hn => ⟨fun _ h heq => (by cases heq), fun _ => hn⟩⟩
    | some l =>
      have hbound := hlo l rfl
      refine ⟨max l 1, rfl, by omega, by omega, fun n hn => ⟨fun hn' x heq => (by cases heq; omega), fun hn' => ?_⟩⟩
      have := hn' l rfl
      omega
  rw [hposLo]
  have ha : toU64 posLo = some posLo.toNat := toU64_some (by omega) (by unfold u64Max; omega)
  by_cases hpresent : hi.all (fun h => decide (posLo ≤ h)) = true
  · rw [if_pos hpresent, ha]
    simp only [Option.bind_eq_bind, Option.bind_some]
    cases hi with
    | none =>
      obtain ⟨s, hs, hmeans⟩ := @means_posGe posLo.toNat (by omega) (by omega)
      refine .one (by rw [hs]; rfl) hmeans fun w => ?_
      rw [mem_positives]
      constructor
      · rintro ⟨hd, hle, _⟩
        exact ⟨hd, (hiff _ (by have := hd.pos; omega)).1 (by omega), fun l heq => by cases heq⟩
      · rintro ⟨hd, hlower, _⟩
        have habove := (hiff (value w : Int) (by have := hd.pos; omega)).2 hlower
        exact ⟨hd, by omega, fun h heq => by cases heq⟩
    | some h =>
      have hbound := hhi h rfl
      have hph : posLo ≤ h := by simpa using hpresent
      obtain ⟨s, hs, hmeans⟩ := @means_posRange posLo.toNat h.toNat (by omega) (by omega) (by omega)
      dsimp only
      rw [toU64_some (v := h) (by omega) (by unfold u64Max; omega)]
      refine .one (by rw [Option.bind_some, hs]; rfl) hmeans fun w => ?_
      rw [mem_positives]
      constructor
      · rintro ⟨hd, hle, hupper⟩
        have hupper := hupper _ rfl
        exact ⟨hd, (hiff _ (by have := hd.pos; omega)).1 (by omega), fun x heq => by cases heq; omega⟩
      · rintro ⟨hd, hlower, hupper⟩
        have habove := (hiff (value w : Int) (by have := hd.pos; omega)).2 hlower
        have hbelow := hupper h rfl
        exact ⟨hd, by omega, fun x heq => by cases heq; omega⟩
  · rw [if_neg hpresent]
    refine .none rfl ?_
    rintro w ⟨hd, hlower, hupper⟩
    cases hi with
    | none => exact hpresent rfl
    | some h =>
      have habove := (hiff (value w : Int) (by have := hd.pos; omega)).2 hlower
      have hbelow := hupper h rfl
      exact hpresent (by simp; omega)

theorem zeroPart_alternative : Alternative (some (zeroPart lo hi)) fun w => w = [0x30] ∧ Within lo hi 0 := by
  have hiff : (lo.all (fun l => decide (l ≤ 0)) && hi.all (fun h => decide (0 ≤ h))) = true ↔ Within lo hi 0 := by
    unfold Within
    cases lo <;> cases hi <;> simp
  unfold zeroPart
  by_cases hzero : Within lo hi 0
  · rw [if_pos (hiff.2 hzero)]
    refine .one rfl (RegexText.means_literal (c := '0') (by decide)) fun w => ?_
    exact ⟨fun h => ⟨h, hzero⟩, And.left⟩
  · rw [if_neg fun h => hzero (hiff.1 h)]
    exact .none rfl fun w h => hzero h.2

end

/-- **The notation is exact and written without a panic.**  Whatever the bounds, it reads as an expression whose
matches are the canonical literals of the integers between them. -/
theorem integerRegex_exact (lo hi : Option Int64) (h : ∀ l u, lo = some l → hi = some u → l ≤ u) :
    ∃ s r, integerRegex lo hi = some s ∧ RegexText.read s = some r ∧ ∀ w : List Byte, w ∈ r.matches' ↔
      CanonicalInteger w ∧ (∀ l, lo = some l → l.toInt ≤ integerValue w) ∧
        ∀ u, hi = some u → integerValue w ≤ u.toInt := by
  obtain ⟨neg, hneg, hnegMeans, hnegMem⟩ := (negativePart_alternative (inI64 lo) (inI64 hi)).written
  obtain ⟨zero, hzero, hzeroMeans, hzeroMem⟩ := (@zeroPart_alternative (lo.map Int64.toInt)
    (hi.map Int64.toInt)).written
  obtain ⟨pos, hpos, hposMeans, hposMem⟩ := (positivePart_alternative (inI64 lo) (inI64 hi)).written
  have hall : ∀ p ∈ neg ++ zero ++ pos, Means p.1 p.2 := by
    intro p hp
    rw [List.mem_append, List.mem_append] at hp
    rcases hp with (hp | hp) | hp
    · exact hnegMeans p hp
    · exact hzeroMeans p hp
    · exact hposMeans p hp
  have hwithin : ∀ n : Int, Within (lo.map Int64.toInt) (hi.map Int64.toInt) n ↔
      (∀ l, lo = some l → l.toInt ≤ n) ∧ ∀ u, hi = some u → n ≤ u.toInt := by
    intro n
    unfold Within
    cases lo <;> cases hi <;> simp
  have hmem : ∀ w, (∃ p ∈ neg ++ zero ++ pos, w ∈ p.2) ↔ CanonicalInteger w ∧
      Within (lo.map Int64.toInt) (hi.map Int64.toInt) (integerValue w) := by
    intro w
    have hsplit : (∃ p ∈ neg ++ zero ++ pos, w ∈ p.2) ↔
        (∃ p ∈ neg, w ∈ p.2) ∨ (∃ p ∈ zero, w ∈ p.2) ∨ ∃ p ∈ pos, w ∈ p.2 := by
      simp only [List.mem_append, or_and_right, exists_or, or_assoc]
    rw [hsplit, hnegMem, hzeroMem, hposMem]
    constructor
    · rintro (⟨d, hd, rfl, hin⟩ | ⟨rfl, hin⟩ | ⟨hd, hin⟩)
      · exact ⟨.inr ⟨d, hd, .inr rfl⟩, hin⟩
      · exact ⟨.inl rfl, hin⟩
      · exact ⟨.inr ⟨w, hd, .inl rfl⟩, by rw [integerValue_positive hd.1]; exact hin⟩
    · rintro ⟨rfl | ⟨d, hd, rfl | rfl⟩, hin⟩
      · exact .inr (.inl ⟨rfl, hin⟩)
      · exact .inr (.inr ⟨hd, by rwa [integerValue_positive hd.1] at hin⟩)
      · exact .inl ⟨d, hd, rfl, hin⟩
  have hne : neg ++ zero ++ pos ≠ [] := by
    -- some integer is in the range, and its literal in some alternative
    obtain ⟨n, hn⟩ : ∃ n : Int, Within (lo.map Int64.toInt) (hi.map Int64.toInt) n := by
      cases lo with
      | none =>
        cases hi with
        | none => exact ⟨0, by simp [Within]⟩
        | some u => exact ⟨u.toInt, by simp [Within]⟩
      | some l =>
        refine ⟨l.toInt, (hwithin _).2 ⟨fun x hx => by cases hx; exact le_rfl, fun u hu => ?_⟩⟩
        exact Int64.le_iff_toInt_le.1 (h l u rfl hu)
    obtain ⟨w, hw, rfl⟩ := exists_canonical n
    obtain ⟨p, hp, _⟩ := (hmem w).2 ⟨hw, hn⟩
    exact List.ne_nil_of_mem hp
  obtain ⟨r, hr, hL⟩ := (AltMeans.one (RegexText.altMeans_join hne hall).group).read
  refine ⟨_, r, ?_, hr, fun w => ?_⟩
  · unfold integerRegex
    dsimp only
    rw [hneg, hpos]
    simp only [Option.bind_eq_bind, Option.bind_some, Option.some.inj hzero]
    simp
  · rw [hL, RegexText.mem_sum, ← hwithin, ← hmem]
    simp only [List.mem_map]
    exact ⟨fun ⟨_, ⟨p, hp, heq⟩, hw⟩ => ⟨p, hp, heq ▸ hw⟩, fun ⟨p, hp, hw⟩ => ⟨_, ⟨p, hp, rfl⟩, hw⟩⟩

/-- From 5 to 12. -/
theorem integerRegex_exact_five :
    ∃ s r, integerRegex (some 5) (some 12) = some s ∧ RegexText.read s = some r ∧
      ([0x31, 0x30] : List Byte) ∈ r.matches' := by
  obtain ⟨s, r, hs, hr, hmem⟩ := integerRegex_exact (some 5) (some 12) fun l u hl hu => by
    cases hl
    cases hu
    decide
  have hdigits : AllDigits [0x31, 0x30] :=
    Decimal.allDigits_cons.2 ⟨by decide, Decimal.allDigits_cons.2 ⟨by decide, Decimal.allDigits_nil⟩⟩
  refine ⟨s, r, hs, hr, (hmem _).2 ⟨.inr ⟨_, ⟨hdigits, 0x31, [0x30], rfl, by decide⟩, .inl rfl⟩, fun l hl => ?_,
    fun u hu => ?_⟩⟩
  · cases hl
    decide
  · cases hu
    decide

end IntegerRegex
end MaskForge
