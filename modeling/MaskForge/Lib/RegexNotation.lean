import MaskForge.Lib.ByteRegex
import MaskForge.Lib.RegexText
/-!
# RegexNotation — which language a pattern stands for

A pattern is alternatives of sequences of atoms, each of them once or repeated.  `Stands` is that grammar with the
language each part stands for.  It is a relation, so that patterns from elsewhere can stand in it unread: `Patterns`
says what they stand for by themselves.
-/
namespace MaskForge.RegexNotation

open scoped Computability
open ByteRegex (Ranges hexValue)
open RegexText (isLiteral readAlt readCat readAtom readSuffix readNumber)

/-- The characters that stand for themselves only behind a backslash. -/
def specials : List Char := ['\\', '.', '+', '*', '?', '(', ')', '[', ']', '{', '}', '^', '$', '|']

/-- Patterns that are not looked into: those that may stand in a group of their own, and those that may stand wherever a
sequence can. -/
structure Patterns where
  alternatives : List Char → Option (Language UInt8)
  sequence : List Char → Option (Language UInt8)

/-! ### Classes -/

/-- What stands for itself in a class. -/
def isClassLiteral (c : Char) : Bool :=
  decide (0x20 ≤ c.toNat) && decide (c.toNat < 0x7f) && !(['[', ']', '\\', '^', '-', '&', '~'].contains c)

/-- A byte of a class: a character that stands for itself, or a byte by its number. -/
def classByte : List Char → Option (Nat × List Char)
  | [] => none
  | '\\' :: 'x' :: hi :: lo :: s => do some (16 * (← hexValue hi) + (← hexValue lo), s)
  | c :: s => if isClassLiteral c then some (c.toNat, s) else none

/-- The ranges between the brackets; a hyphen at the end stands for itself. -/
def classRanges : Nat → List Char → Option Ranges
  | _, [] => some []
  | 0, _ :: _ => none
  | fuel + 1, s@(_ :: _) =>
    if s = ['-'] then some [(0x2d, 0x2d)]
    else do
      let (lo, s) ← classByte s
      match s with
      | '-' :: c :: s => do
        let (hi, s) ← classByte (c :: s)
        let ranges ← classRanges fuel s
        some ((lo, hi) :: ranges)
      | s => do
        let ranges ← classRanges fuel s
        some ((lo, lo) :: ranges)

/-- One byte of the ranges. -/
def inRanges (ranges : Ranges) : Language UInt8 := {w | ∃ b, w = [b] ∧ ranges.Has b}

/-- One byte outside the ranges. -/
def outOfRanges (ranges : Ranges) : Language UInt8 := {w | ∃ b, w = [b] ∧ ¬ranges.Has b}

/-! ### Patterns -/

/-- What follows an atom, and what becomes of its language. -/
inductive Repeats : List Char → (Language UInt8 → Language UInt8) → Prop
  | once : Repeats [] id
  | star : Repeats ['*'] fun L => L∗
  | plus : Repeats ['+'] fun L => L * L∗
  | optional : Repeats ['?'] fun L => 1 + L
  | exactly {n : List Char} (hne : n ≠ []) (hn : ∀ c ∈ n, c.isDigit = true) :
    Repeats ('{' :: (n ++ ['}'])) fun L => L ^ Nat.ofDigitChars 10 n 0
  | atLeast {n : List Char} (hne : n ≠ []) (hn : ∀ c ∈ n, c.isDigit = true) :
    Repeats ('{' :: (n ++ [',', '}'])) fun L => L ^ Nat.ofDigitChars 10 n 0 * L∗
  | between {n m : List Char} (hne : n ≠ []) (hn : ∀ c ∈ n, c.isDigit = true) (hne' : m ≠ [])
      (hm : ∀ c ∈ m, c.isDigit = true) :
    Repeats ('{' :: (n ++ ',' :: (m ++ ['}']))) fun L =>
      L ^ Nat.ofDigitChars 10 n 0 * (1 + L) ^ (Nat.ofDigitChars 10 m 0 - Nat.ofDigitChars 10 n 0)

inductive Part where
  | atom
  | sequence
  | alternatives

/-- **A text stands for a language**, as a part of a pattern. -/
inductive Stands (P : Patterns) : Part → List Char → Language UInt8 → Prop
  | literal {c : Char} (h : c ∉ specials) : Stands P .atom [c] {String.utf8EncodeChar c}
  | escaped {c : Char} (h : c ∈ specials) : Stands P .atom ['\\', c] {String.utf8EncodeChar c}
  | cls {s : List Char} {ranges : Ranges} (h : classRanges s.length s = some ranges) :
    Stands P .atom ('[' :: (s ++ [']'])) (inRanges ranges)
  | notCls {s : List Char} {ranges : Ranges} (h : classRanges s.length s = some ranges) :
    Stands P .atom ('[' :: '^' :: (s ++ [']'])) (outOfRanges ranges)
  | group {s : List Char} {L : Language UInt8} (h : Stands P .alternatives s L) :
      Stands P .atom ('(' :: '?' :: ':' :: (s ++ [')'])) L
  | nil : Stands P .sequence [] 1
  | cons {s q t : List Char} {L M : Language UInt8} {f : Language UInt8 → Language UInt8} (hs : Stands P .atom s L)
      (hq : Repeats q f)
    (ht : Stands P .sequence t M) : Stands P .sequence (s ++ (q ++ t)) (f L * M)
  | bare {s t : List Char} {L M : Language UInt8} (h : P.sequence s = some L) (ht : Stands P .sequence t M) :
    Stands P .sequence (s ++ t) (L * M)
  | one {s : List Char} {L : Language UInt8} (h : Stands P .sequence s L) : Stands P .alternatives s L
  | more {s t : List Char} {L M : Language UInt8} (hs : Stands P .sequence s L) (ht : Stands P .alternatives t M) :
    Stands P .alternatives (s ++ '|' :: t) (L + M)
  | whole {s : List Char} {L : Language UInt8} (h : P.alternatives s = some L) : Stands P .alternatives s L

abbrev Atom (P : Patterns) (s : List Char) (L : Language UInt8) : Prop := Stands P .atom s L

abbrev Sequence (P : Patterns) (s : List Char) (L : Language UInt8) : Prop := Stands P .sequence s L

abbrev Alternatives (P : Patterns) (s : List Char) (L : Language UInt8) : Prop := Stands P .alternatives s L

section
variable {P : Patterns} {s t q : List Char} {L M : Language UInt8} {f : Language UInt8 → Language UInt8}

/-- An atom and what follows it. -/
theorem Stands.repeated (hs : Atom P s L) (hq : Repeats q f) : Sequence P (s ++ q) (f L) := by
  have h := Stands.cons hs hq .nil
  rwa [List.append_nil, mul_one] at h

theorem Stands.single (hs : Atom P s L) : Sequence P s L := by
  have h := hs.repeated .once
  rwa [List.append_nil] at h

/-- **Sequences put together.** -/
theorem Stands.append (hs : Stands P .sequence s L) (ht : Sequence P t M) : Sequence P (s ++ t) (L * M) := by
  generalize hp : Part.sequence = p at hs
  induction hs with
  | nil =>
    rw [List.nil_append, one_mul]
    exact ht
  | cons hs hq _ _ ih =>
    rw [List.append_assoc, List.append_assoc, mul_assoc]
    exact .cons hs hq (ih hp)
  | bare h _ ih =>
    rw [List.append_assoc, mul_assoc]
    exact .bare h (ih hp)
  | literal | escaped | cls | notCls | group | one | more | whole => cases hp

theorem Stands.grouped (h : Alternatives P s L) : Sequence P ('(' :: '?' :: ':' :: (s ++ [')'])) L := h.group.single

/-- **Alternatives joined by bars.** -/
theorem alternatives_join :
    ∀ {parts : List (List Char × Language UInt8)}, parts ≠ [] → (∀ p ∈ parts, Sequence P p.1 p.2) →
    Alternatives P (List.intercalate ['|'] (parts.map Prod.fst)) (parts.map Prod.snd).sum
  | [], hne, _ => absurd rfl hne
  | [p], _, h => by
    have hone := Stands.one (h p List.mem_cons_self)
    simpa [List.intercalate] using hone
  | p :: q :: parts, _, h => by
    have hrest := alternatives_join (List.cons_ne_nil q parts) fun x hx => h x (List.mem_cons_of_mem _ hx)
    have hmore := Stands.more (h p List.mem_cons_self) hrest
    simpa [List.intercalate] using hmore

theorem digits_ne_nil (n : Nat) : Nat.toDigits 10 n ≠ [] := Nat.toDigits_ne_nil

theorem isDigit_of_mem_digits (n : Nat) : ∀ c ∈ Nat.toDigits 10 n, c.isDigit = true := fun _ hc =>
  Nat.isDigit_of_mem_toDigits (by decide) (by decide) hc

theorem ofDigitChars_digits (n : Nat) : Nat.ofDigitChars 10 (Nat.toDigits 10 n) 0 = n :=
  Nat.ofDigitChars_toDigits (by decide) (by decide)

theorem Repeats.from (n : Nat) : Repeats ('{' :: (Nat.toDigits 10 n ++ [',', '}'])) fun L => L ^ n * L∗ := by
  have h := Repeats.atLeast (digits_ne_nil n) (isDigit_of_mem_digits n)
  rwa [ofDigitChars_digits] at h

theorem Repeats.range (n m : Nat) : Repeats ('{' :: (Nat.toDigits 10 n ++ ',' :: (Nat.toDigits 10 m ++ ['}'])))
    fun L => L ^ n * (1 + L) ^ (m - n) := by
  have h := Repeats.between (digits_ne_nil n) (isDigit_of_mem_digits n) (digits_ne_nil m) (isDigit_of_mem_digits m)
  rwa [ofDigitChars_digits, ofDigitChars_digits] at h

end

/-! ### Texts that are read -/

/-- No hyphen stands right behind an opening bracket or another hyphen, where it would not be that of a range. -/
def Tame : List Char → Bool
  | a :: b :: s => !(b == '-' && (a == '[' || a == '-')) && Tame (b :: s)
  | _ => true

theorem tame_tail {c : Char} {s : List Char} (h : Tame (c :: s) = true) : Tame s = true := by
  cases s with
  | nil => rfl
  | cons b s =>
    rw [Tame, Bool.and_eq_true] at h
    exact h.2

theorem tame_drop : ∀ {p s : List Char}, Tame (p ++ s) = true → Tame s = true
  | [], _, h => h
  | _ :: _, _, h => tame_drop (tame_tail h)

theorem isLiteral_special {c : Char} (h : isLiteral c = true) : c ∉ specials := by
  intro hc
  simp only [specials, List.mem_cons, List.not_mem_nil, or_false] at hc
  rcases hc with rfl | rfl | rfl | rfl | rfl | rfl | rfl | rfl | rfl | rfl | rfl | rfl | rfl | rfl
  all_goals
    revert h
    decide

theorem isLiteral_ascii {c : Char} (h : isLiteral c = true) : 0x20 ≤ c.toNat ∧ c.toNat < 0x7f := by
  have hbounds : ∀ lo hi : Nat, 0x20 ≤ lo → hi < 0x7f → lo ≤ c.toNat ∧ c.toNat ≤ hi → 0x20 ≤ c.toNat ∧ c.toNat < 0x7f :=
    fun lo hi _ _ _ => by omega
  simp only [isLiteral, Char.isAlphanum, Char.isAlpha, Char.isUpper, Char.isLower, Char.isDigit, Bool.or_eq_true,
    Bool.and_eq_true, decide_eq_true_eq, beq_iff_eq, ge_iff_le, UInt32.le_iff_toNat_le] at h
  rcases h with ((h | h) | h) | rfl
  · exact hbounds 65 90 (by decide) (by decide) h
  · exact hbounds 97 122 (by decide) (by decide) h
  · exact hbounds 48 57 (by decide) (by decide) h
  · decide

theorem utf8_isLiteral {c : Char} (h : isLiteral c = true) : String.utf8EncodeChar c = [UInt8.ofNat c.toNat] := by
  have hascii := (isLiteral_ascii h).2
  simp only [String.utf8EncodeChar]
  exact if_pos (by
    show c.toNat ≤ 0x7f
    omega)

theorem isClassLiteral_of_isLiteral {c : Char} (h : isLiteral c = true) (hne : c ≠ '-') : isClassLiteral c = true := by
  obtain ⟨hlo, hhi⟩ := isLiteral_ascii h
  have hother : (['[', ']', '\\', '^', '-', '&', '~'].contains c) = false := by
    rw [← Bool.not_eq_true, List.contains_iff_mem]
    intro hc
    simp only [List.mem_cons, List.not_mem_nil, or_false] at hc
    rcases hc with rfl | rfl | rfl | rfl | rfl | rfl | rfl
    · exact absurd h (by decide)
    · exact absurd h (by decide)
    · exact absurd h (by decide)
    · exact absurd h (by decide)
    · exact hne rfl
    · exact absurd h (by decide)
    · exact absurd h (by decide)
  rw [isClassLiteral, decide_eq_true hlo, decide_eq_true hhi, hother]
  rfl

theorem classByte_literal {c : Char} (h : isClassLiteral c = true) (s : List Char) :
    classByte (c :: s) = some (c.toNat, s) := by
  unfold classByte
  split
  · rename_i heq
    cases heq
  · rename_i heq
    cases heq
    exact absurd h (by decide)
  · rename_i heq
    cases heq
    rw [if_pos h]

/-- A range is one class of its ends. -/
theorem classRanges_range {lo hi : Char} (hlo : isClassLiteral lo = true) (hhi : isClassLiteral hi = true) :
    classRanges 3 [lo, '-', hi] = some [(lo.toNat, hi.toNat)] := by
  have hne : [lo, '-', hi] ≠ ['-'] := fun h => by cases h
  rw [classRanges, if_neg hne, classByte_literal hlo]
  simp only [Option.bind_eq_bind, Option.bind_some, classByte_literal hhi, classRanges]

theorem inRanges_range {lo hi : Char} (h : hi.toNat ≤ 0xff) :
    inRanges [(lo.toNat, hi.toNat)] = (RegexText.range lo hi).matches' := by
  ext w
  rw [RegexText.mem_range h]
  show (∃ b, w = [b] ∧ ∃ r ∈ [(lo.toNat, hi.toNat)], _) ↔ _
  simp only [List.mem_singleton, exists_eq_left]

section
variable {P : Patterns}

theorem readNumber_digits {s u : List Char} {n : Nat} (h : readNumber s = some (n, u)) :
    ∃ d, d ≠ [] ∧ (∀ c ∈ d, c.isDigit = true) ∧ s = d ++ u ∧ n = Nat.ofDigitChars 10 d 0 := by
  unfold readNumber at h
  dsimp only at h
  split at h
  · cases h
  · rename_i hne
    cases h
    refine ⟨s.takeWhile Char.isDigit, fun hnil => hne (by rw [hnil]; rfl), fun c hc => ?_,
      List.takeWhile_append_dropWhile.symm, rfl⟩
    exact List.mem_takeWhile_imp hc

theorem readSuffix_repeats {r r' : RegexText.Regex} {s u : List Char} (h : readSuffix r s = some (r', u)) :
    ∃ q f, s = q ++ u ∧ Repeats q f ∧ r'.matches' = f r.matches' := by
  cases s with
  | nil =>
    cases h
    exact ⟨[], _, rfl, .once, rfl⟩
  | cons c s =>
    rw [readSuffix] at h
    split at h
    · rename_i hplus
      subst hplus
      cases h
      exact ⟨['+'], _, rfl, .plus, rfl⟩
    split at h
    · rename_i hbrace
      subst hbrace
      obtain ⟨⟨n, t⟩, hn, h⟩ := Option.bind_eq_some_iff.1 h
      obtain ⟨d, hne, hd, rfl, rfl⟩ := readNumber_digits hn
      dsimp only at h
      split at h
      · cases h
        exact ⟨_, _, by simp, .exactly hne hd, RegularExpression.matches'_pow _ _⟩
      · cases h
        refine ⟨_, _, by simp, .atLeast hne hd, ?_⟩
        rw [RegularExpression.matches'_mul, RegularExpression.matches'_pow, RegularExpression.matches'_star]
      · cases h
    · cases h
      exact ⟨[], _, rfl, .once, rfl⟩

/-- **What is read stands for what it matches.** -/
theorem stands_read : ∀ fuel : Nat,
    (∀ {s u r}, readAlt fuel s = some (r, u) → Tame s = true → ∃ p, s = p ++ u ∧ Alternatives P p r.matches') ∧
    (∀ {s u r}, readCat fuel s = some (r, u) → Tame s = true → ∃ p, s = p ++ u ∧ Sequence P p r.matches') ∧
    ∀ {s u r}, readAtom fuel s = some (r, u) → Tame s = true → ∃ p, s = p ++ u ∧ Atom P p r.matches'
  | 0 => ⟨fun h _ => (by cases h), fun h _ => (by cases h), fun h _ => (by cases h)⟩
  | fuel + 1 => by
    obtain ⟨ihAlt, ihCat, ihAtom⟩ := stands_read fuel
    refine ⟨fun {s u r} h htame => ?_, fun {s u r} h htame => ?_, fun {s u r} h htame => ?_⟩
    · rw [readAlt] at h
      obtain ⟨⟨a, t⟩, ha, hmore⟩ := Option.bind_eq_some_iff.1 h
      clear h
      obtain ⟨p, rfl, hp⟩ := ihCat ha htame
      dsimp only at hmore
      split at hmore
      · obtain ⟨⟨b, v⟩, hb, hend⟩ := Option.bind_eq_some_iff.1 hmore
        cases hend
        obtain ⟨q, rfl, hq⟩ := ihAlt hb (tame_tail (tame_drop htame))
        exact ⟨p ++ '|' :: q, by simp, hp.more hq⟩
      · cases hmore
        exact ⟨p, rfl, hp.one⟩
    · cases s with
      | nil =>
        cases h
        exact ⟨[], rfl, .nil⟩
      | cons c s =>
        rw [readCat] at h
        split at h
        · cases h
          exact ⟨[], rfl, .nil⟩
        obtain ⟨⟨a, t⟩, ha, hafter⟩ := Option.bind_eq_some_iff.1 h
        obtain ⟨⟨a', t'⟩, hsuffix, hrest⟩ := Option.bind_eq_some_iff.1 hafter
        obtain ⟨⟨b, v⟩, hb, hend⟩ := Option.bind_eq_some_iff.1 hrest
        clear h hafter hrest
        cases hend
        obtain ⟨p, hs, hp⟩ := ihAtom ha htame
        rw [hs] at htame ⊢
        obtain ⟨q, f, ht, hq, ha'⟩ := readSuffix_repeats hsuffix
        rw [ht] at htame ⊢
        obtain ⟨p', ht', hp'⟩ := ihCat hb (tame_drop (tame_drop htame))
        rw [ht']
        refine ⟨p ++ (q ++ p'), by simp, ?_⟩
        rw [RegularExpression.matches'_mul, ha']
        exact .cons hp hq hp'
    · cases s with
      | nil => cases h
      | cons c s =>
        unfold readAtom at h
        split at h
        · rename_i hparen
          subst hparen
          split at h
          · obtain ⟨⟨a, t⟩, ha, hclose⟩ := Option.bind_eq_some_iff.1 h
            clear h
            obtain ⟨p, rfl, hp⟩ := ihAlt ha (tame_tail (tame_tail (tame_tail htame)))
            dsimp only at hclose
            split at hclose
            · cases hclose
              exact ⟨'(' :: '?' :: ':' :: (p ++ [')']), by simp, hp.group⟩
            · cases hclose
          · cases h
        split at h
        · rename_i hbracket
          subst hbracket
          split at h
          · rename_i lo hi _
            split at h
            · rename_i hliterals
              cases h
              have hlo : lo ≠ '-' := fun heq => by
                subst heq
                simp [Tame] at htame
              have hhi : hi ≠ '-' := fun heq => by
                subst heq
                simp [Tame] at htame
              have hclass := classRanges_range (isClassLiteral_of_isLiteral hliterals.1 hlo)
                (isClassLiteral_of_isLiteral hliterals.2 hhi)
              have hatom : Atom P ('[' :: ([lo, '-', hi] ++ [']'])) (inRanges [(lo.toNat, hi.toNat)]) := .cls hclass
              rw [inRanges_range (by have := (isLiteral_ascii hliterals.2).2; omega)] at hatom
              exact ⟨['[', lo, '-', hi, ']'], rfl, hatom⟩
            · cases h
          · cases h
        split at h
        · rename_i hliteral
          cases h
          refine ⟨[c], rfl, ?_⟩
          rw [RegexText.literal, RegularExpression.matches'_char, ← utf8_isLiteral hliteral]
          exact .literal (isLiteral_special hliteral)
        · cases h

/-- **A text that is read as a whole stands for its matches.** -/
theorem alternatives_read {s : List Char} {r : RegexText.Regex} (h : RegexText.read s = some r)
    (htame : Tame s = true) :
    Alternatives P s r.matches' := by
  unfold RegexText.read at h
  split at h
  · rename_i r' hr
    cases h
    obtain ⟨p, hp, hstands⟩ := (stands_read _).1 hr htame
    rw [List.append_nil] at hp
    rw [hp]
    exact hstands
  · cases h

end

/-! ### Texts that are read in one way -/

/-- No pattern stands by itself. -/
def unread : Patterns := ⟨fun _ => none, fun _ => none⟩

theorem atom_head {s : List Char} {L : Language UInt8} (h : Atom unread s L) :
    ∃ c t, s = c :: t ∧ (c ∉ specials ∨ c ∈ ['\\', '[', '(']) := by
  cases h with
  | literal h => exact ⟨_, _, rfl, .inl h⟩
  | escaped => exact ⟨_, _, rfl, .inr (by decide)⟩
  | cls => exact ⟨_, _, rfl, .inr (by decide)⟩
  | notCls => exact ⟨_, _, rfl, .inr (by decide)⟩
  | group => exact ⟨_, _, rfl, .inr (by decide)⟩

/-- A sequence is empty or begins with an atom. -/
theorem sequence_cases {s : List Char} {L : Language UInt8} (h : Sequence unread s L) :
    (s = [] ∧ L = 1) ∨ ∃ a q t f M N, s = a ++ (q ++ t) ∧ Atom unread a M ∧ Repeats q f ∧ Sequence unread t N ∧
    L = f M * N := by
  cases h with
  | nil => exact .inl ⟨rfl, rfl⟩
  | cons hs hq ht => exact .inr ⟨_, _, _, _, _, _, rfl, hs, hq, ht, rfl⟩
  | bare h => cases h

theorem sequence_nil {L : Language UInt8} (h : Sequence unread [] L) : L = 1 := by
  rcases sequence_cases h with ⟨-, hL⟩ | ⟨a, q, t, f, M, N, hnil, ha, -⟩
  · exact hL
  · obtain ⟨c, u, rfl, -⟩ := atom_head ha
    cases hnil

/-- No sequence begins with a character that is repeated by it. -/
theorem sequence_head {c : Char} {s : List Char} {L : Language UInt8} (hc : c ∈ specials)
    (hopen : c ∉ ['\\', '[', '(']) :
    ¬ Sequence unread (c :: s) L := by
  intro h
  rcases sequence_cases h with ⟨hnil, -⟩ | ⟨a, q, t, f, M, N, heq, ha, -⟩
  · cases hnil
  · obtain ⟨d, u, rfl, hd⟩ := atom_head ha
    obtain rfl : c = d := (List.cons.inj heq).1
    exact hd.elim (fun hd => hd hc) hopen

/-- **A class repeated stands for one language**. -/
theorem classStar_unique {s : List Char} {r : Ranges} {L : Language UInt8} (hclose : ']' ∉ s) (hbar : '|' ∉ s)
    (hneg : '^' ∉ s) (hr : classRanges s.length s = some r) (h : Alternatives unread ('[' :: (s ++ ']' :: ['*'])) L) :
    L = (inRanges r)∗ := by
  have hseq : Sequence unread ('[' :: (s ++ ']' :: ['*'])) L := by
    generalize htext : '[' :: (s ++ ']' :: ['*']) = text at h
    cases h with
    | one h => exact h
    | more =>
      have hmem : '|' ∈ '[' :: (s ++ ']' :: ['*']) := by
        rw [htext]
        exact List.mem_append_right _ List.mem_cons_self
      simp [hbar] at hmem
    | whole h => cases h
  rcases sequence_cases hseq with ⟨hnil, -⟩ | ⟨a, q, t, f, M, N, heq, ha, hq, ht, rfl⟩
  · cases hnil
  cases ha with
  | literal hc =>
    obtain ⟨rfl, -⟩ := List.cons.inj heq
    exact absurd (by decide) hc
  | escaped => cases heq
  | group => cases heq
  | notCls =>
    have hhead := (List.cons.inj heq).2
    cases s with
    | nil => cases hhead
    | cons c s =>
      obtain ⟨rfl, -⟩ := List.cons.inj hhead
      exact absurd List.mem_cons_self hneg
  | @cls s' r' hr' =>
    have hrest : s ++ ']' :: ['*'] = s' ++ ']' :: (q ++ t) := by
      rw [(List.cons.inj heq).2]
      simp
    have hlast : ']' ∉ ['*'] := by decide
    obtain ⟨rfl, -, hstar⟩ := (List.append_cons_inj_of_notMem hclose hlast).1 hrest
    cases hr.symm.trans hr'
    cases hq with
    | once =>
      rw [List.nil_append] at hstar
      rw [← hstar] at ht
      exact absurd ht (sequence_head (by decide) (by decide))
    | star =>
      have hnil : t = [] := (List.cons.inj hstar).2.symm
      subst hnil
      rw [sequence_nil ht, mul_one]
    | plus | optional | exactly | atLeast | between => cases hstar

end MaskForge.RegexNotation
