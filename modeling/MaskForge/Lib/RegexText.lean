import Mathlib
/-!
# RegexText — a fragment of the regex notation and what it means

Letters, ranges in brackets, repetitions in braces or by a plus, and groups of alternatives, read by recursive descent
into regular expressions over bytes.  A text means a language when it reads as an expression of it in every place it
can stand; meanings compose along the notation.
-/
namespace MaskForge.RegexText

open scoped Computability
open RegularExpression (matches'_add matches'_mul matches'_char matches'_epsilon matches'_pow matches'_star)

abbrev Regex := RegularExpression UInt8

/-- A character that stands for itself. -/
def isLiteral (c : Char) : Bool := c.isAlphanum || c == '-'

def literal (c : Char) : Regex := .char (UInt8.ofNat c.toNat)

/-- One byte from `lo` to `hi`. -/
def range (lo hi : Char) : Regex :=
  (List.range' lo.toNat (hi.toNat + 1 - lo.toNat)).foldr (fun n r => .char (UInt8.ofNat n) + r) 0

/-- The number at the start of a text. -/
def readNumber (s : List Char) : Option (Nat × List Char) :=
  let digits := s.takeWhile Char.isDigit
  if digits.isEmpty then none else some (Nat.ofDigitChars 10 digits 0, s.dropWhile Char.isDigit)

/-- A repetition after an atom, if there is one. -/
def readSuffix (r : Regex) : List Char → Option (Regex × List Char)
  | [] => some (r, [])
  | c :: s =>
    if c = '+' then some (r * r.star, s)
    else if c = '{' then do
      let (n, s) ← readNumber s
      match s with
      | '}' :: s => some (r ^ n, s)
      | ',' :: '}' :: s => some (r ^ n * r.star, s)
      | _ => none
    else some (r, c :: s)

mutual
/-- Alternatives, up to a closing bracket or the end. -/
def readAlt : Nat → List Char → Option (Regex × List Char)
  | 0, _ => none
  | fuel + 1, s => do
    let (a, s) ← readCat fuel s
    match s with
    | '|' :: s => do
      let (b, s) ← readAlt fuel s
      some (a + b, s)
    | s => some (a, s)

/-- A sequence, up to a bar, a closing bracket or the end. -/
def readCat : Nat → List Char → Option (Regex × List Char)
  | 0, _ => none
  | _ + 1, [] => some (1, [])
  | fuel + 1, c :: s =>
    if c = ')' ∨ c = '|' then some (1, c :: s)
    else do
      let (a, s) ← readAtom fuel (c :: s)
      let (a, s) ← readSuffix a s
      let (b, s) ← readCat fuel s
      some (a * b, s)

def readAtom : Nat → List Char → Option (Regex × List Char)
  | 0, _ => none
  | _ + 1, [] => none
  | fuel + 1, c :: s =>
    if c = '(' then
      match s with
      | '?' :: ':' :: s => do
        let (r, s) ← readAlt fuel s
        match s with
        | ')' :: s => some (r, s)
        | _ => none
      | _ => none
    else if c = '[' then
      match s with
      | lo :: '-' :: hi :: ']' :: s => if isLiteral lo ∧ isLiteral hi then some (range lo hi, s) else none
      | _ => none
    else if isLiteral c then some (literal c, s)
    else none
end

/-- The expression a whole text reads as. -/
def read (s : List Char) : Option Regex :=
  match readAlt (3 * s.length + 3) s with
  | some (r, []) => some r
  | _ => none

/-! ### Meanings -/

/-- What ends a sequence. -/
def Stops (rest : List Char) : Prop := ∀ c u, rest = c :: u → c = ')' ∨ c = '|'

/-- What ends alternatives. -/
def Closes (rest : List Char) : Prop := ∀ c u, rest = c :: u → c = ')'

/-- What repeats nothing before it. -/
def Plain (t : List Char) : Prop := ∀ c u, t = c :: u → c ≠ '+' ∧ c ≠ '{'

/-- A text that reads as a sequence wherever a sequence ends. -/
structure ReadsAs (t : List Char) (r : Regex) : Prop where
  plain : Plain t
  reads : ∀ rest fuel, Stops rest → 3 * (t ++ rest).length + 2 ≤ fuel → readCat fuel (t ++ rest) = some (r, rest)

/-- **A text means a language**: put in front of any sequence it reads as something of that language and then
the sequence. -/
def Means (s : List Char) (L : Language UInt8) : Prop :=
  ∀ t r, ReadsAs t r → ∃ r', ReadsAs (s ++ t) r' ∧ r'.matches' = L * r.matches'

/-- Alternatives that mean a language. -/
def AltMeans (s : List Char) (L : Language UInt8) : Prop := ∃ r : Regex, r.matches' = L ∧
  ∀ rest fuel, Closes rest → 3 * (s ++ rest).length + 3 ≤ fuel → readAlt fuel (s ++ rest) = some (r, rest)

theorem Stops.plain {rest : List Char} (h : Stops rest) : Plain rest := by
  intro c u hrest
  rcases h c u hrest with rfl | rfl
  · exact ⟨by decide, by decide⟩
  · exact ⟨by decide, by decide⟩

theorem Plain.append {t rest : List Char} (h : Plain t) (hrest : Plain rest) : Plain (t ++ rest) := by
  intro c u heq
  cases t with
  | nil => exact hrest c u heq
  | cons x t =>
    cases heq
    exact h _ _ rfl

theorem readSuffix_plain {r : Regex} {s : List Char} (h : Plain s) : readSuffix r s = some (r, s) := by
  cases s with
  | nil => rfl
  | cons c s =>
    obtain ⟨hplus, hbrace⟩ := h c s rfl
    rw [readSuffix, if_neg hplus, if_neg hbrace]

theorem readsAs_nil : ReadsAs [] 1 := by
  refine ⟨fun _ _ h => (by cases h), fun rest fuel hrest hfuel => ?_⟩
  obtain ⟨f, rfl⟩ : ∃ f, fuel = f + 1 := ⟨fuel - 1, by omega⟩
  rw [List.nil_append]
  cases rest with
  | nil => rfl
  | cons c u => rw [readCat, if_pos (hrest c u rfl)]

theorem Means.nil : Means [] 1 := fun _ r h => ⟨r, h, (one_mul _).symm⟩

/-- **Meanings of pieces put together.** -/
theorem Means.append {s t : List Char} {L M : Language UInt8} (hs : Means s L) (ht : Means t M) :
    Means (s ++ t) (L * M) := by
  intro u r hu
  obtain ⟨r₁, h₁, hM⟩ := ht u r hu
  obtain ⟨r₂, h₂, hL⟩ := hs _ _ h₁
  refine ⟨r₂, by rw [List.append_assoc]; exact h₂, ?_⟩
  rw [hL, hM, mul_assoc]

/-- An atom and the repetition after it, read in front of anything that does not repeat it. -/
theorem means_piece {c : Char} {s : List Char} {r : Regex} (hhead : c ≠ ')' ∧ c ≠ '|' ∧ c ≠ '+' ∧ c ≠ '{')
    (h : ∀ rest fuel, Plain rest → 3 * (c :: s ++ rest).length + 1 ≤ fuel →
      ∃ a u, readAtom fuel (c :: s ++ rest) = some (a, u) ∧ readSuffix a u = some (r, rest)) :
      Means (c :: s) r.matches' := by
  intro t b ht
  refine ⟨r * b, ⟨fun x u heq => ?_, fun rest fuel hrest hfuel => ?_⟩, matches'_mul r b⟩
  · cases heq
    exact hhead.2.2
  · obtain ⟨f, rfl⟩ : ∃ f, fuel = f + 1 := ⟨fuel - 1, by omega⟩
    rw [List.append_assoc] at hfuel ⊢
    obtain ⟨a, u, hatom, hsuffix⟩ := h (t ++ rest) f (ht.plain.append hrest.plain) (by omega)
    have htail := ht.reads rest f hrest (by
      simp only [List.cons_append, List.length_cons, List.length_append] at hfuel ⊢
      omega)
    rw [List.cons_append] at hatom ⊢
    rw [readCat, if_neg (by rw [not_or]; exact ⟨hhead.1, hhead.2.1⟩), hatom]
    simp only [Option.bind_eq_bind, Option.bind_some, hsuffix, htail]

theorem isLiteral_ne {c : Char} (h : isLiteral c = true) :
    c ≠ '(' ∧ c ≠ '[' ∧ c ≠ ')' ∧ c ≠ '|' ∧ c ≠ '+' ∧ c ≠ '{' := by
  refine ⟨?_, ?_, ?_, ?_, ?_, ?_⟩
  all_goals
    rintro rfl
    revert h
    decide

/-- A letter means itself. -/
theorem means_literal {c : Char} (h : isLiteral c = true) : Means [c] {[UInt8.ofNat c.toNat]} := by
  obtain ⟨hparen, hbracket, hclose, hbar, hplus, hbrace⟩ := isLiteral_ne h
  have hmeans := @means_piece c [] (literal c) ⟨hclose, hbar, hplus, hbrace⟩ (by
    intro rest fuel hrest hfuel
    obtain ⟨f, rfl⟩ : ∃ f, fuel = f + 1 := ⟨fuel - 1, by omega⟩
    refine ⟨literal c, rest, ?_, readSuffix_plain hrest⟩
    rw [List.cons_append, List.nil_append]
    unfold readAtom
    simp only [if_neg hparen, if_neg hbracket, if_pos h])
  rwa [literal, matches'_char] at hmeans

/-- A bracket, as an atom. -/
theorem readAtom_range {lo hi : Char} (hlo : isLiteral lo = true) (hhi : isLiteral hi = true) {fuel : Nat}
    (hfuel : 1 ≤ fuel) (rest : List Char) :
    readAtom fuel ('[' :: lo :: '-' :: hi :: ']' :: rest) = some (range lo hi, rest) := by
  obtain ⟨f, rfl⟩ : ∃ f, fuel = f + 1 := ⟨fuel - 1, by omega⟩
  have hbracket : ('[' : Char) ≠ '(' := by decide
  unfold readAtom
  simp only [if_neg hbracket, if_pos, hlo, hhi, and_self]

theorem mem_range {lo hi : Char} {w : List UInt8} (h : hi.toNat ≤ 0xff) :
    w ∈ (range lo hi).matches' ↔ ∃ b : UInt8, w = [b] ∧ lo.toNat ≤ b.toNat ∧ b.toNat ≤ hi.toNat := by
  have hgen : ∀ l : List Nat, w ∈ (l.foldr (fun n (r : Regex) => .char (UInt8.ofNat n) + r) 0).matches' ↔
    ∃ n ∈ l, w = [UInt8.ofNat n] := by
    intro l
    induction l with
    | nil => simp
    | cons n l ih =>
      rw [List.foldr_cons, matches'_add, Language.mem_add, ih, matches'_char]
      simp only [List.mem_cons, exists_eq_or_imp]
      rfl
  rw [range, hgen]
  constructor
  · rintro ⟨n, hn, rfl⟩
    rw [List.mem_range'_1] at hn
    have hbyte : (UInt8.ofNat n).toNat = n := by rw [UInt8.toNat_ofNat', Nat.mod_eq_of_lt (by omega)]
    exact ⟨_, rfl, by rw [hbyte]; omega, by rw [hbyte]; omega⟩
  · rintro ⟨b, rfl, hlo, hhi⟩
    exact ⟨b.toNat, List.mem_range'_1.2 ⟨hlo, by omega⟩, by rw [UInt8.ofNat_toNat]⟩

section
variable {lo hi : Char}

/-- A bracket means one of its bytes. -/
theorem means_range (hlo : isLiteral lo = true) (hhi : isLiteral hi = true) :
    Means ['[', lo, '-', hi, ']'] (range lo hi).matches' :=
  means_piece (by decide) fun rest fuel hrest hfuel =>
    ⟨range lo hi, rest, readAtom_range hlo hhi (by omega) rest, readSuffix_plain hrest⟩

/-- A bracket and a plus. -/
theorem means_range_plus (hlo : isLiteral lo = true) (hhi : isLiteral hi = true) :
    Means ['[', lo, '-', hi, ']', '+'] ((range lo hi).matches' * (range lo hi).matches'∗) := by
  have hmeans := @means_piece '[' [lo, '-', hi, ']', '+'] (range lo hi * (range lo hi).star)
    (by decide) fun rest fuel _ hfuel =>
    ⟨range lo hi, '+' :: rest, readAtom_range hlo hhi (by omega) _, rfl⟩
  rwa [matches'_mul, matches'_star] at hmeans

theorem readNumber_toDigits (n : Nat) {c : Char} (hc : c.isDigit = false) (rest : List Char) :
    readNumber (Nat.toDigits 10 n ++ c :: rest) = some (n, c :: rest) := by
  have hdigits : ∀ x ∈ Nat.toDigits 10 n, x.isDigit = true := fun x hx => Nat.isDigit_of_mem_toDigits (by decide)
    (by decide) hx
  have htake : (Nat.toDigits 10 n ++ c :: rest).takeWhile Char.isDigit = Nat.toDigits 10 n := by
    rw [List.takeWhile_append_of_pos hdigits, List.takeWhile_cons_of_neg (by simp [hc]), List.append_nil]
  have hdrop : (Nat.toDigits 10 n ++ c :: rest).dropWhile Char.isDigit = c :: rest := by
    rw [List.dropWhile_append_of_pos hdigits, List.dropWhile_cons_of_neg (by simp [hc])]
  have hne : ¬ (Nat.toDigits 10 n).isEmpty = true := by
    rw [List.isEmpty_iff]
    exact Nat.toDigits_ne_nil
  rw [readNumber, htake, hdrop, if_neg hne, Nat.ofDigitChars_toDigits (by decide) (by decide)]

/-- A bracket repeated exactly. -/
theorem means_range_exactly (hlo : isLiteral lo = true) (hhi : isLiteral hi = true) (n : Nat) :
    Means ('[' :: lo :: '-' :: hi :: ']' :: '{' :: (Nat.toDigits 10 n ++ ['}'])) ((range lo hi).matches' ^ n) := by
  rw [← matches'_pow]
  refine means_piece (by decide) fun rest fuel _ hfuel =>
    ⟨range lo hi, '{' :: (Nat.toDigits 10 n ++ '}' :: rest), ?_, ?_⟩
  · simp only [List.cons_append, List.append_assoc, List.nil_append]
    exact readAtom_range hlo hhi (by omega) _
  · rw [readSuffix, if_neg (by decide), if_pos rfl, readNumber_toDigits n (by decide)]
    rfl

/-- A bracket repeated at least so often. -/
theorem means_range_atLeast (hlo : isLiteral lo = true) (hhi : isLiteral hi = true) (n : Nat) :
    Means ('[' :: lo :: '-' :: hi :: ']' :: '{' :: (Nat.toDigits 10 n ++ [',', '}'])) ((range lo hi).matches' ^ n *
      (range lo hi).matches'∗) := by
  rw [← matches'_pow, ← matches'_star, ← matches'_mul]
  refine means_piece (by decide) fun rest fuel _ hfuel =>
    ⟨range lo hi, '{' :: (Nat.toDigits 10 n ++ ',' :: '}' :: rest), ?_, ?_⟩
  · simp only [List.cons_append, List.append_assoc, List.nil_append]
    exact readAtom_range hlo hhi (by omega) _
  · rw [readSuffix, if_neg (by decide), if_pos rfl, readNumber_toDigits n (by decide)]
    rfl

end

/-! ### Alternatives -/

theorem Closes.stops {rest : List Char} (h : Closes rest) : Stops rest := fun c u hrest => .inl (h c u hrest)

/-- One alternative. -/
theorem AltMeans.one {s : List Char} {L : Language UInt8} (h : Means s L) : AltMeans s L := by
  obtain ⟨r, hr, hL⟩ := h [] 1 readsAs_nil
  rw [List.append_nil] at hr
  refine ⟨r, by rw [hL, matches'_epsilon, mul_one], fun rest fuel hrest hfuel => ?_⟩
  obtain ⟨f, rfl⟩ : ∃ f, fuel = f + 1 := ⟨fuel - 1, by omega⟩
  rw [readAlt, hr.reads rest f hrest.stops (by omega)]
  cases rest with
  | nil => rfl
  | cons c u =>
    have hc := hrest c u rfl
    subst hc
    rfl

/-- An alternative and more. -/
theorem AltMeans.more {s t : List Char} {L M : Language UInt8} (hs : Means s L) (ht : AltMeans t M) :
    AltMeans (s ++ '|' :: t) (L + M) := by
  obtain ⟨r, hr, hL⟩ := hs [] 1 readsAs_nil
  obtain ⟨q, hM, hq⟩ := ht
  rw [List.append_nil] at hr
  refine ⟨r + q, by rw [matches'_add, hL, hM, matches'_epsilon, mul_one], fun rest fuel hrest hfuel => ?_⟩
  obtain ⟨f, rfl⟩ : ∃ f, fuel = f + 1 := ⟨fuel - 1, by omega⟩
  rw [List.append_assoc, List.cons_append] at hfuel ⊢
  have hbar : Stops ('|' :: (t ++ rest)) := by
    intro c u heq
    cases heq
    exact .inr rfl
  rw [readAlt, hr.reads _ f hbar (by omega)]
  have hlater := hq rest f hrest (by
    simp only [List.length_append, List.length_cons] at hfuel ⊢
    omega)
  simp only [Option.bind_eq_bind, Option.bind_some, hlater]

/-- **A group means what its alternatives do.** -/
theorem AltMeans.group {s : List Char} {L : Language UInt8} (h : AltMeans s L) :
    Means ('(' :: '?' :: ':' :: (s ++ [')'])) L := by
  obtain ⟨r, rfl, hr⟩ := h
  refine means_piece (by decide) fun rest fuel hrest hfuel => ⟨r, rest, ?_, readSuffix_plain hrest⟩
  obtain ⟨f, rfl⟩ : ∃ f, fuel = f + 1 := ⟨fuel - 1, by omega⟩
  have hclose : Closes (')' :: rest) := by
    intro c u heq
    cases heq
    rfl
  simp only [List.cons_append, List.append_assoc, List.nil_append] at hfuel ⊢
  rw [readAtom, if_pos rfl]
  dsimp only
  rw [hr (')' :: rest) f hclose (by simp only [List.length_cons] at hfuel; omega)]
  rfl

/-- **Alternatives joined by bars.** -/
theorem altMeans_join : ∀ {parts : List (List Char × Language UInt8)}, parts ≠ [] → (∀ p ∈ parts, Means p.1 p.2) →
    AltMeans (List.intercalate ['|'] (parts.map Prod.fst)) (parts.map Prod.snd).sum
  | [], hne, _ => absurd rfl hne
  | [p], _, h => by
    have hone := AltMeans.one (h p List.mem_cons_self)
    simpa [List.intercalate] using hone
  | p :: q :: parts, _, h => by
    have hrest := altMeans_join (List.cons_ne_nil q parts) fun x hx => h x (List.mem_cons_of_mem _ hx)
    have hmore := AltMeans.more (h p List.mem_cons_self) hrest
    simpa [List.intercalate] using hmore

theorem mem_sum {w : List UInt8} : ∀ {Ls : List (Language UInt8)}, w ∈ Ls.sum ↔ ∃ L ∈ Ls, w ∈ L
  | [] => by simp
  | L :: Ls => by rw [List.sum_cons, Language.mem_add, mem_sum]; simp

/-- **Alternatives read as a whole.** -/
theorem AltMeans.read {s : List Char} {L : Language UInt8} (h : AltMeans s L) :
    ∃ r, read s = some r ∧ r.matches' = L := by
  obtain ⟨r, hL, hr⟩ := h
  have hwhole := hr [] (3 * s.length + 3) (fun _ _ h => by cases h) (by rw [List.append_nil])
  rw [List.append_nil] at hwhole
  exact ⟨r, by rw [RegexText.read, hwhole], hL⟩

end MaskForge.RegexText
