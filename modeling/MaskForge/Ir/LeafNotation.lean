import MaskForge.Ir.NodeLanguage
/-!
# LeafNotation — what the texts of nodes without children stand for

Every node of the automaton path that is not compiled from its parts is lowered to a text; the text stands for the
node's spellings, wherever a sequence may stand in a pattern.
-/
namespace MaskForge
namespace Ir

open scoped Computability
open AnyJson (spaces numbers numerals digits digits₁ optFraction optExponent signed)
open Decimal (IsDigit)
open Derivative (word letters letters₁)
open Phrase (between)
open RegexNotation

variable {P : Patterns} {s t : List Char} {L : Language Byte}

/-! ### Words -/

theorem word_append (a b : List Byte) : word (a ++ b) = word a * word b := by
  ext u
  rw [Language.mem_mul]
  constructor
  · rintro rfl
    exact ⟨a, rfl, b, rfl, rfl⟩
  · rintro ⟨_, rfl, _, rfl, rfl⟩
    rfl

theorem word_cons (b : Byte) (u : List Byte) : word (b :: u) = word [b] * word u := word_append [b] u

theorem utf8_cons (c : Char) (s : List Char) : utf8 (c :: s) = String.utf8EncodeChar c ++ utf8 s := List.flatMap_cons

/-- **Characters that are not special stand for themselves.** -/
theorem plain_atom {c : Char} (h : c ∉ specials) : Atom P [c] (word (String.utf8EncodeChar c)) := .literal h

theorem plain_stands : ∀ {s : List Char}, (∀ c ∈ s, c ∉ specials) → Sequence P s (word (utf8 s))
  | [], _ => .nil
  | c :: s, h => by
    have hrest : Sequence P s (word (utf8 s)) := plain_stands fun x hx => h x (List.mem_cons_of_mem _ hx)
    rw [utf8_cons, word_append]
    exact (Stands.literal (h c List.mem_cons_self)).single.append hrest

/-- **So does every character that is escaped where it has to be.** -/
theorem pushEscaped_stands (c : Char) : Sequence P (pushEscaped c) (word (String.utf8EncodeChar c)) := by
  unfold pushEscaped
  split
  · rename_i h
    exact (Stands.escaped h).single
  · rename_i h
    exact (Stands.literal h).single

theorem word_stands {u : List Byte} (h : s.all (fun c => !specials.contains c) = true) (hu : utf8 s = u) :
    Sequence P s (word u) := by
  subst hu
  refine plain_stands fun c hc hspecial => ?_
  have hplain := List.all_eq_true.1 h c hc
  rw [Bool.not_eq_true', ← Bool.not_eq_true, List.contains_iff_mem] at hplain
  exact hplain hspecial

theorem escaped_stands : ∀ s : List Char, Sequence P (s.flatMap pushEscaped) (word (utf8 s))
  | [] => .nil
  | c :: s => by
    rw [List.flatMap_cons, utf8_cons, word_append]
    exact (pushEscaped_stands c).append (escaped_stands s)

theorem quote_stands : Sequence P ['"'] (word [0x22]) := word_stands rfl rfl

/-- Between quotes. -/
theorem quotes_stand (h : Sequence P s L) : Sequence P ('"' :: (s ++ ['"'])) (word [0x22] * (L * word [0x22])) :=
  quote_stands.append (h.append quote_stands)

theorem escapeRegex_stands (s : List Char) : Sequence P (escapeRegex s) (word (0x22 :: (utf8 s ++ [0x22]))) := by
  rw [word_cons, word_append]
  exact quotes_stand (escaped_stands s)

/-! ### Classes -/

/-- One byte of a kind. -/
def oneByte (p : Byte → Prop) : Language Byte := {u | ∃ b, u = [b] ∧ p b}

/-- **One letter of a kind, any number of times.** -/
theorem kstar_letters {p : Byte → Prop} : (oneByte p)∗ = letters p := by
  ext u
  rw [Language.mem_kstar]
  constructor
  · rintro ⟨us, rfl, hus⟩ b hb
    obtain ⟨v, hv, hb⟩ := List.mem_flatten.1 hb
    obtain ⟨a, rfl, ha⟩ := hus v hv
    rw [List.mem_singleton.1 hb]
    exact ha
  · intro hu
    refine ⟨u.map fun b => [b], ?_, fun v hv => ?_⟩
    · rw [← List.flatMap_def, List.flatMap_singleton']
    · obtain ⟨b, hb, rfl⟩ := List.mem_map.1 hv
      exact ⟨b, rfl, hu b hb⟩

theorem plus_letters {p : Byte → Prop} : (oneByte p) * letters p = letters₁ p := by
  ext u
  rw [Language.mem_mul]
  constructor
  · rintro ⟨_, ⟨b, rfl, hb⟩, v, hv, rfl⟩
    exact ⟨List.cons_ne_nil b v, List.forall_mem_cons.2 ⟨hb, hv⟩⟩
  · rintro ⟨hne, hu⟩
    obtain ⟨b, v, rfl⟩ := List.exists_cons_of_ne_nil hne
    exact ⟨[b], ⟨b, rfl, hu b List.mem_cons_self⟩, v, fun a ha => hu a (List.mem_cons_of_mem _ ha), rfl⟩

/-- A class of bytes of one kind. -/
theorem class_stands {r : ByteRegex.Ranges} {p : Byte → Prop} (h : classRanges s.length s = some r)
    (hp : ∀ b, r.Has b ↔ p b) :
    Atom P ('[' :: (s ++ [']'])) (oneByte p) := by
  have hset : inRanges r = oneByte p := by
    ext u
    exact exists_congr fun b => and_congr_right fun _ => hp b
  rw [← hset]
  exact .cls h

theorem jsonWsRe_stands : Sequence P jsonWsRe spaces := by
  have hclass : Atom P ('[' :: (['\\', 'x', '2', '0', '\\', 'x', '0', '9', '\\', 'x', '0', 'A', '\\', 'x', '0', 'D'] ++
    [']']))
      (oneByte IsWhitespace) :=
        class_stands (r := [(0x20, 0x20), (0x09, 0x09), (0x0a, 0x0a), (0x0d, 0x0d)]) (by decide) fun b => by
        simp only [ByteRegex.Ranges.has_cons, ByteRegex.Ranges.has_nil, IsWhitespace, ← UInt8.toNat_inj]
        simp
        omega
  have hstar := hclass.repeated .star
  rw [kstar_letters] at hstar
  exact hstar

/-- A structural character behind white space and in front of it. -/
theorem around_stands {b : Byte} (h : Sequence P s (word [b])) : Sequence P (jsonWsRe ++ (s ++ jsonWsRe)) (around b) :=
  jsonWsRe_stands.append (h.append jsonWsRe_stands)

theorem colonSep_stands : Sequence P colonSep colon := around_stands (s := [':']) (word_stands rfl rfl)

theorem commaSep_stands : Sequence P commaSep comma := around_stands (s := [',']) (word_stands rfl rfl)

/-! ### Numbers -/

theorem digit_stands : Atom P "[0-9]".toList (oneByte IsDigit) :=
  class_stands (s := ['0', '-', '9']) (r := [(0x30, 0x39)]) (by decide) fun b => by
    simp [ByteRegex.Ranges.has_cons, IsDigit]

theorem digits_stand : Sequence P "[0-9]*".toList digits := by
  have hstar : Sequence P ("[0-9]".toList ++ ['*']) _ := digit_stands.repeated .star
  rw [kstar_letters] at hstar
  exact hstar

theorem digits₁_stand : Sequence P "[0-9]+".toList digits₁ := by
  have hplus : Sequence P ("[0-9]".toList ++ ['+']) _ := digit_stands.repeated .plus
  rw [kstar_letters, plus_letters] at hplus
  exact hplus

theorem numerals_eq : numerals = word [0x30] + (oneByte fun b => IsDigit b ∧ b ≠ 0x30) * digits := by
  ext u
  rw [Language.mem_add, Language.mem_mul]
  constructor
  · rintro (h | ⟨hall, b, v, rfl, hb⟩)
    · exact .inl h
    · exact .inr ⟨[b], ⟨b, rfl, hall b List.mem_cons_self, hb⟩, v, fun a ha => hall a (List.mem_cons_of_mem _ ha), rfl⟩
  · rintro (h | ⟨_, ⟨b, rfl, hdigit, hb⟩, v, hv, rfl⟩)
    · exact .inl h
    · exact .inr ⟨List.forall_mem_cons.2 ⟨hdigit, hv⟩, b, v, rfl, hb⟩

theorem numerals_stand : Atom P "(?:0|[1-9][0-9]*)".toList numerals := by
  have hfirst : Atom P "[1-9]".toList (oneByte fun b => IsDigit b ∧ b ≠ 0x30) :=
    class_stands (s := ['1', '-', '9']) (r := [(0x31, 0x39)]) (by decide) fun b => by
    simp only [ByteRegex.Ranges.has_cons, ByteRegex.Ranges.has_nil, IsDigit, Ne, ← UInt8.toNat_inj]
    simp
    omega
  have hzero : Sequence P ['0'] (word [0x30]) := word_stands rfl rfl
  rw [numerals_eq]
  exact (hzero.more (hfirst.single.append digits_stand).one).group

theorem optFraction_stands : Sequence P r"(?:\.[0-9]+)?".toList optFraction := by
  have hpoint : Sequence P ['\\', '.'] (word [0x2e]) := (Stands.escaped (c := '.') (by decide)).single
  exact (hpoint.append digits₁_stand).one.group.repeated .optional

/-- A class of two bytes. -/
theorem pair_eq {a b : Byte} : oneByte (fun x => x = a ∨ x = b) = word [a] + word [b] := by
  ext u
  rw [Language.mem_add]
  constructor
  · rintro ⟨x, rfl, rfl | rfl⟩
    · exact .inl rfl
    · exact .inr rfl
  · rintro (rfl | rfl)
    · exact ⟨a, rfl, .inl rfl⟩
    · exact ⟨b, rfl, .inr rfl⟩

theorem optExponent_stands : Sequence P "(?:[eE][+-]?[0-9]+)?".toList optExponent := by
  have hmark : Atom P "[eE]".toList (word [0x65] + word [0x45]) := by
    rw [← pair_eq]
    exact class_stands (s := ['e', 'E']) (r := [(0x65, 0x65), (0x45, 0x45)]) (by decide) fun b => by
      simp only [ByteRegex.Ranges.has_cons, ByteRegex.Ranges.has_nil, ← UInt8.toNat_inj]
      simp
      omega
  have hsign : Atom P "[+-]".toList (word [0x2b] + word [0x2d]) := by
    rw [← pair_eq]
    exact class_stands (s := ['+', '-']) (r := [(0x2b, 0x2b), (0x2d, 0x2d)]) (by decide) fun b => by
      simp only [ByteRegex.Ranges.has_cons, ByteRegex.Ranges.has_nil, ← UInt8.toNat_inj]
      simp
      omega
  have hsigned : Sequence P "[+-]?[0-9]+".toList signed := (hsign.repeated .optional).append digits₁_stand
  exact (hmark.single.append hsigned).one.group.repeated .optional

theorem jsonNumberRe_stands : Sequence P jsonNumberRe numbers := by
  have hsign : Sequence P ['-', '?'] (1 + word [0x2d]) := (plain_atom (by decide)).repeated .optional
  rw [AnyJson.numbers_eq]
  exact hsign.append (numerals_stand.single.append (optFraction_stands.append optExponent_stands))

/-! ### Literals -/

theorem literalFrom_eq : ∀ (inString escaped : Bool) (s : List Char), literalFrom inString escaped s =
    (structural inString escaped s).flatMap fun c => if c.2 then jsonWsRe ++ (pushEscaped c.1 ++ jsonWsRe)
    else pushEscaped c.1
  | _, _, [] => by rw [literalFrom, structural, List.flatMap_nil]
  | true, escaped, c :: s => by
    rw [literalFrom, structural, List.flatMap_cons, if_neg Bool.false_ne_true]
    congr 1
    split
    · exact literalFrom_eq true false s
    split
    · exact literalFrom_eq true true s
    · exact literalFrom_eq _ false s
  | false, escaped, c :: s => by
    rw [literalFrom, structural]
    by_cases hquote : c = '"'
    · rw [if_pos hquote, if_pos hquote, List.flatMap_cons, if_neg Bool.false_ne_true, literalFrom_eq true escaped s]
    · rw [if_neg hquote, if_neg hquote, List.flatMap_cons, literalFrom_eq false escaped s]
      by_cases hmark : c ∈ ['{', '}', '[', ']', ':', ',']
      · rw [if_pos hmark, if_pos (decide_eq_true hmark), List.append_assoc, List.append_assoc]
        simp only [List.append_assoc]
      · rw [if_neg hmark, if_neg (by simpa using hmark)]

theorem jsonLiteralRegex_stands (s : List Char) : Sequence P (jsonLiteralRegex s) (spacedText s) := by
  rw [jsonLiteralRegex, literalFrom_eq, spacedText]
  induction structural false false s with
  | nil => exact .nil
  | cons c cs ih =>
    rw [List.flatMap_cons, List.map_cons, List.prod_cons]
    refine Stands.append ?_ ih
    split
    · exact jsonWsRe_stands.append ((pushEscaped_stands c.1).append jsonWsRe_stands)
    · exact pushEscaped_stands c.1

/-- The digits of a number stand for themselves, behind a sign or without. -/
theorem integer_stands (i : Int) : Sequence P (toString i).toList (word (utf8 (toString i).toList)) := by
  have hdigits : ∀ n : ℕ, ∀ c ∈ Nat.toDigits 10 n, c ∉ specials := by
    intro n c hc hspecial
    have hdigit := isDigit_of_mem_digits n c hc
    simp only [specials, List.mem_cons, List.not_mem_nil, or_false] at hspecial
    rcases hspecial with rfl | rfl | rfl | rfl | rfl | rfl | rfl | rfl | rfl | rfl | rfl | rfl | rfl | rfl
    all_goals
      revert hdigit
      decide
  refine plain_stands fun c hc => ?_
  cases i with
  | ofNat n =>
    refine hdigits n c ?_
    simpa [Int.toString_eq_repr, Int.repr, Nat.repr] using hc
  | negSucc n =>
    have hc' : c = '-' ∨ c ∈ Nat.toDigits 10 (n + 1) := by simpa [Int.toString_eq_repr, Int.repr, Nat.repr] using hc
    rcases hc' with rfl | hc'
    · decide
    · exact hdigits (n + 1) c hc'

theorem scalarRegex_stands (l : ScalarLit) : Sequence P (scalarRegex l) l.spelling := by
  cases l with
  | null => exact word_stands rfl rfl
  | bool b =>
    cases b
    · exact word_stands rfl rfl
    · exact word_stands rfl rfl
  | int i => exact integer_stands i.toInt
  | str s => exact escapeRegex_stands (jsonEncode s.chars)
  | json s => exact jsonLiteralRegex_stands s.chars

/-- **Alternatives in any order**: the text of each stands for its part of the sum. -/
theorem longestFirst_stands {α : Type} {f : α → List Char} {lang : α → Language Byte} {alts : List α} (hne : alts ≠ [])
    (h : ∀ a ∈ alts, Sequence P (f a) (lang a)) : Sequence P (longestFirst (alts.map f)) (alts.map lang).sum := by
  have hsort : (alts.mergeSort fun a b => decide (utf8Len (f b) ≤ utf8Len (f a))).map f =
      (alts.map f).mergeSort fun s t => decide (utf8Len t ≤ utf8Len s) := List.map_mergeSort fun _ _ _ _ => rfl
  have hperm := List.mergeSort_perm alts fun a b => decide (utf8Len (f b) ≤ utf8Len (f a))
  generalize alts.mergeSort (fun a b => decide (utf8Len (f b) ≤ utf8Len (f a))) = sorted at hsort hperm
  have hjoin : Alternatives P (List.intercalate ['|'] ((sorted.map fun a => (f a, lang a)).map Prod.fst))
      ((sorted.map fun a => (f a, lang a)).map Prod.snd).sum := by
    refine alternatives_join (fun hnil => hne ?_) fun p hp => ?_
    · rw [List.map_eq_nil_iff.1 hnil] at hperm
      exact hperm.symm.eq_nil
    · obtain ⟨a, ha, rfl⟩ := List.mem_map.1 hp
      exact h a (hperm.mem_iff.1 ha)
  rw [List.map_map, List.map_map] at hjoin
  rw [longestFirst, ← hsort, ← (hperm.map lang).sum_eq]
  exact hjoin.grouped

/-! ### Nodes -/

theorem quantifier_stands {base : List Char} {minLen maxLen : Option UInt32} (h : Alternatives P base L)
    (hbounds : ordered minLen maxLen = true) :
    Sequence P (group base ++ quantifier minLen maxLen) (between L ((minLen.map UInt32.toNat).getD 0)
      (maxLen.map UInt32.toNat)) := by
  cases minLen with
  | none =>
    cases maxLen with
    | none =>
      rw [Option.map_none, Option.getD_none, Phrase.between_star]
      exact h.group.repeated .star
    | some b =>
      have hrange : Sequence P _ (L ^ 0 * (1 + L) ^ (b.toNat - 0)) := h.group.repeated (.range 0 b.toNat)
      rw [Option.map_none, Option.map_some, Option.getD_none, Phrase.between_range (Nat.zero_le _)]
      exact hrange
  | some a =>
    cases maxLen with
    | none =>
      rw [Option.map_none, Option.map_some, Option.getD_some, Phrase.between_from]
      exact h.group.repeated (.from a.toNat)
    | some b =>
      have hle : a.toNat ≤ b.toNat := by
        rw [ordered, Bool.not_eq_true', decide_eq_false_iff_not] at hbounds
        exact Nat.not_lt.1 hbounds
      rw [Option.map_some, Option.map_some, Option.getD_some, Phrase.between_range hle]
      exact h.group.repeated (.range a.toNat b.toNat)

section
variable {w : SchemaIRWire} {env : Externals}

/-- What stands for the patterns of a schema. -/
structure Covers (P : Patterns) (w : SchemaIRWire) : Prop where
  strings : ∀ (i : ℕ) regex minLen maxLen charset, w.nodes[i]? = some (Node.stringPattern regex minLen maxLen charset) →
    ∃ L, P.alternatives (w.textAt regex) = some L
  numbers : ∀ (i : ℕ) regex, w.nodes[i]? = some (Node.lexicalNumber regex) → ∃ L, P.sequence (w.textAt regex) = some L

theorem textAt_of {r : StrRef} {s : Str} (h : w.strAt r = some s) : w.textAt r = s.chars := by
  rw [SchemaIRWire.textAt, h]
  rfl

end

end Ir
end MaskForge
