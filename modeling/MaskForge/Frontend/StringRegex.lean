import MaskForge.Lib.ByteRegex
import MaskForge.Structured.StringGrammar
/-!
# StringRegex — the regexes of JSON strings and the string decoder

The frontend writes down strings twice: the body of an unconstrained string, and one code point of a counted string. 
The code points are the spellings of one character, which the decoder reads; the body takes the escape of a surrogate
half for itself, whatever stands around it, and there the backends part.
-/
namespace MaskForge
namespace StringRegex

open ByteRegex (Ranges Expr langOf mem_langOf_cons mem_langOf_nil)
open JsonStringDecoder (new feed between feed_cont feed_append)

/-- `JSON_STRING_BODY`. -/
def jsonStringBody : String :=
  r#"(?:[\x20-\x21\x23-\x5b\x5d-\x7f]|"# ++
  r"[\xc2-\xdf][\x80-\xbf]" ++
  r"|\xe0[\xa0-\xbf][\x80-\xbf]|[\xe1-\xec][\x80-\xbf][\x80-\xbf]" ++
  r"|\xed[\x80-\x9f][\x80-\xbf]|[\xee-\xef][\x80-\xbf][\x80-\xbf]" ++
  r"|\xf0[\x90-\xbf][\x80-\xbf][\x80-\xbf]|[\xf1-\xf3][\x80-\xbf][\x80-\xbf][\x80-\xbf]" ++
  r"|\xf4[\x80-\x8f][\x80-\xbf][\x80-\xbf]" ++
  r#"|\\(?:["\\/bfnrt]|u[0-9a-fA-F]{4}))*"#

/-- `JSON_STRING_CODEPOINT`. -/
def jsonStringCodepoint : String :=
  r#"(?:[\x20\x21\x23-\x5b\x5d-\x7f]|\\["\\/bfnrt]"# ++
  r"|\\u(?:[0-9a-ceA-CE][0-9a-fA-F]{3}|[fF][0-9a-fA-F]{3}|[dD][0-7][0-9a-fA-F]{2})" ++
  r"|\\u[dD][89abAB][0-9a-fA-F]{2}\\u[dD][c-fC-F][0-9a-fA-F]{2}" ++
  r"|[\xc2-\xdf][\x80-\xbf]" ++
  r"|\xe0[\xa0-\xbf][\x80-\xbf]|[\xe1-\xec][\x80-\xbf][\x80-\xbf]" ++
  r"|\xed[\x80-\x9f][\x80-\xbf]|[\xee-\xef][\x80-\xbf][\x80-\xbf]" ++
  r"|\xf0[\x90-\xbf][\x80-\xbf][\x80-\xbf]|[\xf1-\xf3][\x80-\xbf][\x80-\xbf][\x80-\xbf]" ++
  r"|\xf4[\x80-\x8f][\x80-\xbf][\x80-\xbf])"

/-- A pattern matches some bytes in full. -/
def Matches (pattern : String) (w : List Byte) : Prop := ∃ e, ByteRegex.read pattern.toList = some e ∧ w ∈ e.lang

/-- So many matches of a pattern, one after the other. -/
def Repeats (pattern : String) (n : Nat) (w : List Byte) : Prop :=
  ∃ units : List (List Byte), units.length = n ∧ (∀ u ∈ units, Matches pattern u) ∧ units.flatten = w

/-! ### The words of the patterns -/

def byteClass (b : Nat) : Ranges := [(b, b)]

def tailClass : Ranges := [(0x80, 0xbf)]

/-- `0-9a-fA-F`. -/
def hexClass : Ranges := [(0x30, 0x39), (0x61, 0x66), (0x41, 0x46)]

/-- `"\/bfnrt`. -/
def shortClass : Ranges :=
  [(0x22, 0x22), (0x5c, 0x5c), (0x2f, 0x2f), (0x62, 0x62), (0x66, 0x66), (0x6e, 0x6e), (0x72, 0x72), (0x74, 0x74)]

/-- The characters past ASCII. -/
def utf8Words : List (List Ranges) :=
  [[[(0xc2, 0xdf)], tailClass],
   [byteClass 0xe0, [(0xa0, 0xbf)], tailClass],
   [[(0xe1, 0xec)], tailClass, tailClass],
   [byteClass 0xed, [(0x80, 0x9f)], tailClass],
   [[(0xee, 0xef)], tailClass, tailClass],
   [byteClass 0xf0, [(0x90, 0xbf)], tailClass, tailClass],
   [[(0xf1, 0xf3)], tailClass, tailClass, tailClass],
   [byteClass 0xf4, [(0x80, 0x8f)], tailClass, tailClass]]

def shortWord : List Ranges := [byteClass 0x5c, shortClass]

def unicodeWord (digits : List Ranges) : List Ranges := byteClass 0x5c :: byteClass 0x75 :: digits

def bodyWords : List (List Ranges) :=
  [[(0x20, 0x21), (0x23, 0x5b), (0x5d, 0x7f)]] ::
    (utf8Words ++ [shortWord, unicodeWord [hexClass, hexClass, hexClass, hexClass]])

def codepointWords : List (List Ranges) :=
  [[(0x20, 0x20), (0x21, 0x21), (0x23, 0x5b), (0x5d, 0x7f)]] :: shortWord ::
    unicodeWord [[(0x30, 0x39), (0x61, 0x63), (0x65, 0x65), (0x41, 0x43), (0x45, 0x45)], hexClass, hexClass,
      hexClass] ::
    unicodeWord [[(0x66, 0x66), (0x46, 0x46)], hexClass, hexClass, hexClass] ::
    unicodeWord [[(0x64, 0x64), (0x44, 0x44)], [(0x30, 0x37)], hexClass, hexClass] ::
    (unicodeWord [[(0x64, 0x64), (0x44, 0x44)], [(0x38, 0x38), (0x39, 0x39), (0x61, 0x61), (0x62, 0x62), (0x41, 0x41),
      (0x42, 0x42)],
        hexClass, hexClass] ++
      unicodeWord [[(0x64, 0x64), (0x44, 0x44)], [(0x63, 0x66), (0x43, 0x46)], hexClass, hexClass]) ::
    utf8Words

theorem read_body : (ByteRegex.read jsonStringBody.toList).bind Expr.starWords = some bodyWords := by
  unfold jsonStringBody
  simp only [String.toList_append, String.reduceToList]
  decide +kernel

theorem read_codepoint : (ByteRegex.read jsonStringCodepoint.toList).bind Expr.words = some codepointWords := by
  unfold jsonStringCodepoint
  simp only [String.toList_append, String.reduceToList]
  decide +kernel

theorem matches_codepoint_iff {w : List Byte} : Matches jsonStringCodepoint w ↔ w ∈ langOf codepointWords := by
  obtain ⟨e, he, hwords⟩ := Option.bind_eq_some_iff.1 read_codepoint
  simp only [Matches, he, Option.some.injEq, exists_eq_left', Expr.lang_eq_langOf hwords]

theorem matches_body_iff {w : List Byte} :
    Matches jsonStringBody w ↔ ∃ units : List (List Byte), w = units.flatten ∧ ∀ u ∈ units, u ∈ langOf bodyWords := by
  obtain ⟨e, he, hwords⟩ := Option.bind_eq_some_iff.1 read_body
  simp only [Matches, he, Option.some.injEq, exists_eq_left', Expr.lang_eq_star hwords, Language.mem_kstar]

/-! ### What the words stand for -/

/-- A digit of some kind, by the ranges it can be in. -/
theorem exists_hexDigit {b : Byte} {p : Nat → Prop} :
    (∃ v, hexDigit b = some v ∧ p v) ↔ (0x30 ≤ b.toNat ∧ b.toNat ≤ 0x39 ∧ p (b.toNat - 0x30)) ∨
    (0x41 ≤ b.toNat ∧ b.toNat ≤ 0x46 ∧ p (b.toNat - 0x37)) ∨
    (0x61 ≤ b.toNat ∧ b.toNat ≤ 0x66 ∧ p (b.toNat - 0x57)) := by
  simp only [hexDigit_iff]
  constructor
  · rintro ⟨v, ⟨h, h', rfl⟩ | ⟨h, h', rfl⟩ | ⟨h, h', rfl⟩, hv⟩
    · exact .inl ⟨h, h', hv⟩
    · exact .inr (.inl ⟨h, h', hv⟩)
    · exact .inr (.inr ⟨h, h', hv⟩)
  · rintro (⟨h, h', hv⟩ | ⟨h, h', hv⟩ | ⟨h, h', hv⟩)
    · exact ⟨_, .inl ⟨h, h', rfl⟩, hv⟩
    · exact ⟨_, .inr (.inl ⟨h, h', rfl⟩), hv⟩
    · exact ⟨_, .inr (.inr ⟨h, h', rfl⟩), hv⟩

theorem has_hexClass {b : Byte} : Ranges.Has hexClass b ↔ ∃ v, hexDigit b = some v := by
  have hdigit := @exists_hexDigit b fun _ => True
  simp only [and_true] at hdigit
  rw [hdigit]
  simp only [hexClass, Ranges.has_cons, Ranges.has_nil, or_false]
  omega

/-- The lead bytes of the characters past ASCII, each with the bytes it asks for. -/
theorem mem_utf8Words {w : List Byte} : w ∈ langOf utf8Words ↔
    ∃ lead bs n lo hi cp, w = lead :: bs ∧ utf8LeadShape lead = some (n, lo, hi, cp) ∧ bs.length = n ∧
    Tails lo hi bs := by
  simp only [utf8Words, byteClass, tailClass, mem_langOf_cons, mem_langOf_nil, List.forall₂_cons_left_iff,
    List.forall₂_nil_left_iff, Ranges.has_cons, Ranges.has_nil, or_false]
  constructor
  · rintro (⟨a, _, ha, ⟨b, _, hb, rfl, rfl⟩, rfl⟩ | ⟨a, _, ha, ⟨b, _, hb, ⟨c, _, hc, rfl, rfl⟩, rfl⟩, rfl⟩ |
      ⟨a, _, ha, ⟨b, _, hb, ⟨c, _, hc, rfl, rfl⟩, rfl⟩, rfl⟩ | ⟨a, _, ha, ⟨b, _, hb, ⟨c, _, hc, rfl, rfl⟩, rfl⟩, rfl⟩ |
      ⟨a, _, ha, ⟨b, _, hb, ⟨c, _, hc, rfl, rfl⟩, rfl⟩, rfl⟩ |
      ⟨a, _, ha, ⟨b, _, hb, ⟨c, _, hc, ⟨d, _, hd, rfl, rfl⟩, rfl⟩, rfl⟩, rfl⟩ |
      ⟨a, _, ha, ⟨b, _, hb, ⟨c, _, hc, ⟨d, _, hd, rfl, rfl⟩, rfl⟩, rfl⟩, rfl⟩ |
      ⟨a, _, ha, ⟨b, _, hb, ⟨c, _, hc, ⟨d, _, hd, rfl, rfl⟩, rfl⟩, rfl⟩, rfl⟩)
    all_goals
      have hshape : (utf8LeadShape a).isSome := by
        unfold utf8LeadShape
        split_ifs <;> first | rfl | omega
      obtain ⟨⟨n, lo, hi, cp⟩, hshape⟩ := Option.isSome_iff_exists.1 hshape
      have hcases := utf8LeadShape_some hshape
      refine ⟨_, _, n, lo, hi, cp, rfl, hshape, ?_, ?_, ?_⟩
      · simp
        omega
      · omega
      · simp [IsTail]
        try omega
  · rintro ⟨lead, bs, n, lo, hi, cp, rfl, hshape, hlen, htails⟩
    have hcases := utf8LeadShape_some hshape
    rcases bs with _ | ⟨b, _ | ⟨c, _ | ⟨d, _ | ⟨_, _⟩⟩⟩⟩
    · simp at hlen
      omega
    · simp [Tails] at hlen htails
      simp
      omega
    · simp [Tails, IsTail] at hlen htails
      simp
      omega
    · simp [Tails, IsTail] at hlen htails
      simp
      omega
    · simp at hlen
      omega

/-- **The words past ASCII are the characters past ASCII.** -/
theorem mem_utf8Words_iff {w : List Byte} :
    w ∈ langOf utf8Words ↔ ∃ c : Char, 0x80 ≤ c.toNat ∧ w = String.utf8EncodeChar c := by
  rw [mem_utf8Words]
  constructor
  · rintro ⟨lead, bs, n, lo, hi, cp, rfl, hshape, hlen, htails⟩
    obtain ⟨c, _, hc, henc⟩ := utf8Encode_of_shape hshape htails hlen
    exact ⟨c, hc, henc.symm⟩
  · rintro ⟨c, hc, rfl⟩
    obtain ⟨lead, bs, n, lo, hi, cp, henc, hshape, hlen, htails, _⟩ := shape_of_utf8Encode hc
    exact ⟨lead, bs, n, lo, hi, cp, henc, hshape, hlen, htails⟩

/-- What stands raw in a string, by its byte. -/
def PrintableAscii (b : Byte) : Prop := 0x20 ≤ b.toNat ∧ b.toNat < 0x80 ∧ b.toNat ≠ 0x22 ∧ b.toNat ≠ 0x5c

/-- A raw character is printable ASCII or past it. -/
theorem spells_raw_iff {w : List Byte} :
    (∃ c : Char, 0x20 ≤ c.toNat ∧ c ≠ '"' ∧ c ≠ '\\' ∧ w = String.utf8EncodeChar c) ↔
    (∃ b, PrintableAscii b ∧ w = [b]) ∨ w ∈ langOf utf8Words := by
  rw [mem_utf8Words_iff]
  constructor
  · rintro ⟨c, hprintable, hquote, hslash, rfl⟩
    by_cases hc : c.toNat < 0x80
    · have hbyte : (UInt8.ofNat c.toNat).toNat = c.toNat := by rw [UInt8.toNat_ofNat', Nat.mod_eq_of_lt (by omega)]
      refine .inl ⟨_, ⟨?_, ?_, fun h => hquote ?_, fun h => hslash ?_⟩, utf8Encode_ascii hc⟩
      · omega
      · omega
      · exact Char.toNat_inj.1 (hbyte ▸ h)
      · exact Char.toNat_inj.1 (hbyte ▸ h)
    · exact .inr ⟨c, Nat.le_of_not_lt hc, rfl⟩
  · rintro (⟨b, ⟨hprintable, hascii, hquote, hslash⟩, rfl⟩ | ⟨c, hc, rfl⟩)
    · obtain ⟨c, hc⟩ := exists_char b.toNat (by unfold Nat.isValidChar; omega)
      refine ⟨c, by omega, fun h => hquote ?_, fun h => hslash ?_, ?_⟩
      · rw [← hc, h]
        rfl
      · rw [← hc, h]
        rfl
      · rw [utf8Encode_ascii (by omega), hc, UInt8.ofNat_toNat]
    · refine ⟨c, by omega, fun h => ?_, fun h => ?_, rfl⟩
      · rw [h] at hc
        exact absurd hc (by decide)
      · rw [h] at hc
        exact absurd hc (by decide)

theorem mem_shortWord {w : List Byte} :
    List.Forall₂ Ranges.Has shortWord w ↔ ∃ b c, shortEscape b = some c ∧ w = [0x5c, b] := by
  have hslash : ∀ a : Byte, 0x5c ≤ a.toNat ∧ a.toNat ≤ 0x5c ↔ a = 0x5c := fun a => by
    rw [← UInt8.toNat_inj]
    exact ⟨fun h => Nat.le_antisymm h.2 h.1, fun h => by rw [h]; decide⟩
  have hletter : ∀ b : Byte, Ranges.Has shortClass b ↔ ∃ c, shortEscape b = some c := fun b => by
    simp only [shortClass, Ranges.has_cons, Ranges.has_nil, or_false, shortEscape, ← UInt8.toNat_inj]
    split_ifs
    all_goals simp only [UInt8.reduceToNat, Option.some.injEq, exists_eq', iff_true, exists_false, iff_false] at *
    all_goals omega
  simp only [shortWord, byteClass, List.forall₂_cons_left_iff, List.forall₂_nil_left_iff, Ranges.has_cons,
    Ranges.has_nil, or_false, hslash, hletter]
  simp

theorem has_byteClass {n : Nat} {b c : Byte} (h : c.toNat = n) : Ranges.Has (byteClass n) b ↔ b = c := by
  rw [← UInt8.toNat_inj, h]
  simp only [byteClass, Ranges.has_cons, Ranges.has_nil, or_false]
  exact ⟨fun h => Nat.le_antisymm h.2 h.1, fun h => ⟨Nat.le_of_eq h.symm, Nat.le_of_eq h⟩⟩

theorem mem_unicodeWord {w : List Byte} {digits : List Ranges} :
    List.Forall₂ Ranges.Has (unicodeWord digits) w ↔ ∃ ds, List.Forall₂ Ranges.Has digits ds ∧
    w = unicodeEscape ds := by
  simp only [unicodeWord, List.forall₂_cons_left_iff, @has_byteClass 0x5c _ 0x5c rfl, @has_byteClass 0x75 _ 0x75 rfl]
  simp [unicodeEscape]

theorem four_hex {ds : List Byte} : List.Forall₂ Ranges.Has [hexClass, hexClass, hexClass, hexClass] ds ↔
    ds.length = 4 ∧ ∃ v, hexValue ds = some v := by
  simp only [List.forall₂_cons_left_iff, List.forall₂_nil_left_iff, has_hexClass]
  constructor
  · rintro ⟨a, _, ⟨x, ha⟩, ⟨b, _, ⟨y, hb⟩, ⟨c, _, ⟨z, hc⟩, ⟨d, _, ⟨t, hd⟩, rfl, rfl⟩, rfl⟩, rfl⟩, rfl⟩
    exact ⟨rfl, _, hexValue_four.2 ⟨x, y, z, t, ha, hb, hc, hd, rfl⟩⟩
  · rintro ⟨hlen, v, hv⟩
    match ds, hlen with
    | [a, b, c, d], _ =>
      obtain ⟨x, y, z, t, ha, hb, hc, hd, _⟩ := hexValue_four.1 hv
      exact ⟨a, _, ⟨x, ha⟩, ⟨b, _, ⟨y, hb⟩, ⟨c, _, ⟨z, hc⟩, ⟨d, _, ⟨t, hd⟩, rfl, rfl⟩, rfl⟩, rfl⟩, rfl⟩

/-! ### Pieces of a body -/

/-- What the body's regex reads at a time: a character, or the escape of a surrogate half. -/
inductive Piece where
  | char (c : Char)
  | half (v : Nat)

inductive Reads : List Byte → Piece → Prop
  | raw (c : Char) (printable : 0x20 ≤ c.toNat) (quote : c ≠ '"') (backslash : c ≠ '\\') :
    Reads (String.utf8EncodeChar c) (.char c)
  | short {b : Byte} {c : Char} (h : shortEscape b = some c) : Reads [0x5c, b] (.char c)
  | unicode {digits : List Byte} {c : Char} (four : digits.length = 4) (value : hexValue digits = some c.toNat) :
      Reads (unicodeEscape digits) (.char c)
  | half {digits : List Byte} {v : Nat} (four : digits.length = 4) (value : hexValue digits = some v)
      (range : 0xd800 ≤ v ∧ v ≤ 0xdfff) : Reads (unicodeEscape digits) (.half v)

/-- Every half is in a pair, a high one and a low one. -/
def Paired : List Piece → Prop
  | [] => True
  | .char _ :: rest => Paired rest
  | .half hi :: .half lo :: rest => hi ≤ 0xdbff ∧ 0xdc00 ≤ lo ∧ Paired rest
  | [.half _] => False
  | .half _ :: .char _ :: _ => False

/-- **The bytes read as a string body in which the escape of a surrogate half stands alone.** -/
def LoneHalf (b : List Byte) : Prop :=
  ∃ units pieces, List.Forall₂ Reads units pieces ∧ units.flatten = b ∧ ¬ Paired pieces

/-- **The body repeats pieces.** -/
theorem mem_bodyWords {u : List Byte} : u ∈ langOf bodyWords ↔ ∃ p, Reads u p := by
  have hascii : List.Forall₂ Ranges.Has [[(0x20, 0x21), (0x23, 0x5b), (0x5d, 0x7f)]] u ↔ ∃ b, PrintableAscii b ∧
    u = [b] := by
    simp only [List.forall₂_cons_left_iff, List.forall₂_nil_left_iff, Ranges.has_cons, Ranges.has_nil, or_false,
      PrintableAscii]
    constructor
    · rintro ⟨b, _, h, rfl, rfl⟩
      exact ⟨b, by omega, rfl⟩
    · rintro ⟨b, h, rfl⟩
      exact ⟨b, _, by omega, rfl, rfl⟩
  rw [bodyWords, mem_langOf_cons, ByteRegex.langOf_append, Language.mem_add, hascii, ← or_assoc, ← spells_raw_iff,
    mem_langOf_cons, mem_langOf_cons, mem_shortWord, mem_unicodeWord]
  simp only [mem_langOf_nil, or_false, four_hex]
  constructor
  · rintro (⟨c, hprintable, hquote, hslash, rfl⟩ | ⟨b, c, h, rfl⟩ | ⟨ds, ⟨hfour, v, hv⟩, rfl⟩)
    · exact ⟨_, .raw c hprintable hquote hslash⟩
    · exact ⟨_, .short h⟩
    · have hlt := hexValue_lt hv
      rw [hfour] at hlt
      by_cases hrange : 0xd800 ≤ v ∧ v ≤ 0xdfff
      · exact ⟨_, .half hfour hv hrange⟩
      · obtain ⟨c, hc⟩ := exists_char v (by unfold Nat.isValidChar; omega)
        exact ⟨.char c, .unicode hfour (by rw [hv, hc])⟩
  · rintro ⟨p, h⟩
    cases h with
    | raw c hprintable hquote hslash => exact .inl ⟨c, hprintable, hquote, hslash, rfl⟩
    | short h => exact .inr (.inl ⟨_, _, h, rfl⟩)
    | unicode four value => exact .inr (.inr ⟨_, ⟨four, _, value⟩, rfl⟩)
    | half four value range => exact .inr (.inr ⟨_, ⟨four, _, value⟩, rfl⟩)

/-! ### One code point -/

theorem has_d {b : Byte} : Ranges.Has [(0x64, 0x64), (0x44, 0x44)] b ↔ hexDigit b = some 0xd := by
  simp only [Ranges.has_cons, Ranges.has_nil, or_false, hexDigit_iff]
  omega

/-- The escapes of the units that are no surrogate halves, by their first two digits. -/
theorem mem_plainWords {ds : List Byte} :
    (List.Forall₂ Ranges.Has [[(0x30, 0x39), (0x61, 0x63), (0x65, 0x65), (0x41, 0x43), (0x45, 0x45)], hexClass,
      hexClass, hexClass] ds ∨
      List.Forall₂ Ranges.Has [[(0x66, 0x66), (0x46, 0x46)], hexClass, hexClass, hexClass] ds ∨
      List.Forall₂ Ranges.Has [[(0x64, 0x64), (0x44, 0x44)], [(0x30, 0x37)], hexClass, hexClass] ds) ↔
    ds.length = 4 ∧ ∃ v, hexValue ds = some v ∧ ¬(0xd800 ≤ v ∧ v ≤ 0xdfff) := by
  have hother : ∀ b : Byte, Ranges.Has [(0x30, 0x39), (0x61, 0x63), (0x65, 0x65), (0x41, 0x43), (0x45, 0x45)] b ↔
      ∃ v, hexDigit b = some v ∧ v ≠ 0xd ∧ v ≠ 0xf := fun b => by
    rw [exists_hexDigit]
    simp only [Ranges.has_cons, Ranges.has_nil, or_false]
    omega
  have hf : ∀ b : Byte, Ranges.Has [(0x66, 0x66), (0x46, 0x46)] b ↔ hexDigit b = some 0xf := fun b => by
    simp only [Ranges.has_cons, Ranges.has_nil, or_false, hexDigit_iff]
    omega
  have hlow : ∀ b : Byte, Ranges.Has [(0x30, 0x37)] b ↔ ∃ v, hexDigit b = some v ∧ v ≤ 7 := fun b => by
    rw [exists_hexDigit]
    simp only [Ranges.has_cons, Ranges.has_nil, or_false]
    omega
  simp only [List.forall₂_cons_left_iff, List.forall₂_nil_left_iff, has_hexClass, hother, hf, has_d, hlow]
  constructor
  · rintro (⟨a, _, ⟨x, ha, hx⟩, ⟨b, _, ⟨y, hb⟩, ⟨c, _, ⟨z, hc⟩, ⟨d, _, ⟨t, hd⟩, rfl, rfl⟩, rfl⟩, rfl⟩, rfl⟩ |
      ⟨a, _, ha, ⟨b, _, ⟨y, hb⟩, ⟨c, _, ⟨z, hc⟩, ⟨d, _, ⟨t, hd⟩, rfl, rfl⟩, rfl⟩, rfl⟩, rfl⟩ |
      ⟨a, _, ha, ⟨b, _, ⟨y, hb, hy⟩, ⟨c, _, ⟨z, hc⟩, ⟨d, _, ⟨t, hd⟩, rfl, rfl⟩, rfl⟩, rfl⟩, rfl⟩)
    all_goals
      refine ⟨rfl, _, hexValue_four.2 ⟨_, y, z, t, ha, hb, hc, hd, rfl⟩, ?_⟩
      have := hexDigit_lt hb
      have := hexDigit_lt hc
      have := hexDigit_lt hd
      omega
  · rintro ⟨hfour, v, hv, hplain⟩
    obtain ⟨a, b, c, d, rfl⟩ := List.length_eq_four.1 hfour
    obtain ⟨x, y, z, t, ha, hb, hc, hd, rfl⟩ := hexValue_four.1 hv
    have := hexDigit_lt ha
    have := hexDigit_lt hb
    have := hexDigit_lt hc
    have := hexDigit_lt hd
    by_cases hx : x = 0xd
    · exact .inr (.inr ⟨a, _, hx ▸ ha, ⟨b, _, ⟨y, hb, by omega⟩, ⟨c, _, ⟨z, hc⟩, ⟨d, _, ⟨t, hd⟩, rfl, rfl⟩, rfl⟩, rfl⟩,
        rfl⟩)
    by_cases hx' : x = 0xf
    · exact .inr (.inl ⟨a, _, hx' ▸ ha, ⟨b, _, ⟨y, hb⟩, ⟨c, _, ⟨z, hc⟩, ⟨d, _, ⟨t, hd⟩, rfl, rfl⟩, rfl⟩, rfl⟩, rfl⟩)
    · exact .inl ⟨a, _, ⟨x, ha, hx, hx'⟩, ⟨b, _, ⟨y, hb⟩, ⟨c, _, ⟨z, hc⟩, ⟨d, _, ⟨t, hd⟩, rfl, rfl⟩, rfl⟩, rfl⟩, rfl⟩

/-- The escapes of the halves of one kind, by their first two digits. -/
theorem mem_halfWord {second : Ranges} {lo hi : Nat} {ds : List Byte} (hhi : hi < 0x10)
    (h : ∀ b, Ranges.Has second b ↔ ∃ v, hexDigit b = some v ∧ lo ≤ v ∧ v ≤ hi) :
    List.Forall₂ Ranges.Has [[(0x64, 0x64), (0x44, 0x44)], second, hexClass, hexClass] ds ↔
      ds.length = 4 ∧ ∃ v, hexValue ds = some v ∧ 0xd000 + 0x100 * lo ≤ v ∧ v ≤ 0xd0ff + 0x100 * hi := by
  simp only [List.forall₂_cons_left_iff, List.forall₂_nil_left_iff, has_hexClass, has_d, h]
  constructor
  · rintro ⟨a, _, ha, ⟨b, _, ⟨y, hb, hy⟩, ⟨c, _, ⟨z, hc⟩, ⟨d, _, ⟨t, hd⟩, rfl, rfl⟩, rfl⟩, rfl⟩, rfl⟩
    have := hexDigit_lt hc
    have := hexDigit_lt hd
    exact ⟨rfl, _, hexValue_four.2 ⟨_, y, z, t, ha, hb, hc, hd, rfl⟩, by omega, by omega⟩
  · rintro ⟨hfour, v, hv, hleast, hmost⟩
    obtain ⟨a, b, c, d, rfl⟩ := List.length_eq_four.1 hfour
    obtain ⟨x, y, z, t, ha, hb, hc, hd, rfl⟩ := hexValue_four.1 hv
    have := hexDigit_lt ha
    have := hexDigit_lt hb
    have := hexDigit_lt hc
    have := hexDigit_lt hd
    obtain rfl : x = 0xd := by omega
    exact ⟨a, _, ha, ⟨b, _, ⟨y, hb, by omega⟩, ⟨c, _, ⟨z, hc⟩, ⟨d, _, ⟨t, hd⟩, rfl, rfl⟩, rfl⟩, rfl⟩, rfl⟩

theorem char_not_half (c : Char) : ¬(0xd800 ≤ c.toNat ∧ c.toNat ≤ 0xdfff) := by
  have hvalid : c.toNat.isValidChar := c.valid
  unfold Nat.isValidChar at hvalid
  omega

/-- The escape of a unit that is no half spells its character. -/
theorem spells_plain {ds : List Byte} (h : ds.length = 4 ∧ ∃ v, hexValue ds = some v ∧ ¬(0xd800 ≤ v ∧ v ≤ 0xdfff)) :
    ∃ c, Spells (unicodeEscape ds) c := by
  obtain ⟨hfour, v, hv, hplain⟩ := h
  have hlt := hexValue_lt hv
  rw [hfour] at hlt
  obtain ⟨c, hc⟩ := exists_char v (by unfold Nat.isValidChar; omega)
  exact ⟨c, .unicode hfour (by rw [hv, hc])⟩

/-- **The code point regex takes the spellings of one character.** -/
theorem matches_codepoint {w : List Byte} : Matches jsonStringCodepoint w ↔ ∃ c, Spells w c := by
  have hascii : List.Forall₂ Ranges.Has [[(0x20, 0x20), (0x21, 0x21), (0x23, 0x5b), (0x5d, 0x7f)]] w ↔
    ∃ b, PrintableAscii b ∧ w = [b] := by
    simp only [List.forall₂_cons_left_iff, List.forall₂_nil_left_iff, Ranges.has_cons, Ranges.has_nil, or_false,
      PrintableAscii]
    constructor
    · rintro ⟨b, _, h, rfl, rfl⟩
      exact ⟨b, by omega, rfl⟩
    · rintro ⟨b, h, rfl⟩
      exact ⟨b, _, by omega, rfl, rfl⟩
  have hhigh : ∀ b : Byte, Ranges.Has [(0x38, 0x38), (0x39, 0x39), (0x61, 0x61), (0x62, 0x62), (0x41, 0x41),
    (0x42, 0x42)] b ↔
      ∃ v, hexDigit b = some v ∧ 8 ≤ v ∧ v ≤ 0xb := fun b => by
    rw [exists_hexDigit]
    simp only [Ranges.has_cons, Ranges.has_nil, or_false]
    omega
  have hlow : ∀ b : Byte, Ranges.Has [(0x63, 0x66), (0x43, 0x46)] b ↔ ∃ v, hexDigit b = some v ∧ 0xc ≤ v ∧ v ≤ 0xf :=
    fun b => by
    rw [exists_hexDigit]
    simp only [Ranges.has_cons, Ranges.has_nil, or_false]
    omega
  rw [matches_codepoint_iff, codepointWords]
  simp only [mem_langOf_cons, hascii, mem_shortWord, ByteRegex.has_append, mem_unicodeWord,
    mem_halfWord (by decide) hhigh,
    mem_halfWord (by decide) hlow]
  constructor
  · rintro (⟨b, h, rfl⟩ | ⟨b, c, h, rfl⟩ | ⟨ds, h, rfl⟩ | ⟨ds, h, rfl⟩ | ⟨ds, h, rfl⟩ |
      ⟨_, _, ⟨high, ⟨high4, hi, highValue, highRange⟩, rfl⟩, ⟨low, ⟨low4, lo, lowValue, lowRange⟩, rfl⟩, rfl⟩ | h)
    · obtain ⟨c, hprintable, hquote, hslash, heq⟩ := spells_raw_iff.2 (.inl ⟨b, h, rfl⟩)
      exact ⟨c, heq ▸ .raw c hprintable hquote hslash⟩
    · exact ⟨c, .short h⟩
    · exact spells_plain (mem_plainWords.1 (.inl h))
    · exact spells_plain (mem_plainWords.1 (.inr (.inl h)))
    · exact spells_plain (mem_plainWords.1 (.inr (.inr h)))
    · obtain ⟨c, hc⟩ := exists_char (0x10000 + (hi - 0xd800) * 0x400 + (lo - 0xdc00)) (by unfold Nat.isValidChar; omega)
      exact ⟨c, .pair high4 low4 highValue lowValue highRange lowRange hc⟩
    · obtain ⟨c, hprintable, hquote, hslash, rfl⟩ := spells_raw_iff.2 (.inr h)
      exact ⟨c, .raw c hprintable hquote hslash⟩
  · rintro ⟨c, h⟩
    cases h with
    | raw c printable quote backslash =>
      rcases spells_raw_iff.1 ⟨c, printable, quote, backslash, rfl⟩ with h | h
      · exact .inl h
      · exact .inr (.inr (.inr (.inr (.inr (.inr h)))))
    | short h => exact .inr (.inl ⟨_, _, h, rfl⟩)
    | unicode four value =>
      rcases mem_plainWords.2 ⟨four, _, value, char_not_half _⟩ with h | h | h
      · exact .inr (.inr (.inl ⟨_, h, rfl⟩))
      · exact .inr (.inr (.inr (.inl ⟨_, h, rfl⟩)))
      · exact .inr (.inr (.inr (.inr (.inl ⟨_, h, rfl⟩))))
    | pair high4 low4 highValue lowValue highRange lowRange code =>
      exact .inr (.inr (.inr (.inr (.inr (.inl
        ⟨_, _, ⟨_, ⟨high4, _, highValue, highRange⟩, rfl⟩, ⟨_, ⟨low4, _, lowValue, lowRange⟩, rfl⟩, rfl⟩)))))

/-- Every unit stands for something when all of them do, side by side. -/
theorem all_iff_forall₂ {α β : Type} {R : α → β → Prop} :
    ∀ {us : List α}, (∀ u ∈ us, ∃ c, R u c) ↔ ∃ cs, List.Forall₂ R us cs
  | [] => by simp
  | u :: us => by
    rw [List.forall_mem_cons, all_iff_forall₂]
    constructor
    · rintro ⟨⟨c, hc⟩, cs, hcs⟩
      exact ⟨c :: cs, .cons hc hcs⟩
    · rintro ⟨_, hc | ⟨hc, hcs⟩⟩
      exact ⟨⟨_, hc⟩, _, hcs⟩

/-- **So many code points are a string body that spells as many characters.** -/
theorem repeats_codepoint {n : Nat} {b : List Byte} :
    Repeats jsonStringCodepoint n b ↔ ∃ cs, cs.length = n ∧ Spelling b cs := by
  simp only [Repeats, matches_codepoint, all_iff_forall₂]
  constructor
  · rintro ⟨units, rfl, ⟨cs, hcs⟩, rfl⟩
    exact ⟨cs, hcs.length_eq.symm, units, hcs, rfl⟩
  · rintro ⟨cs, rfl, units, hcs, rfl⟩
    exact ⟨units, hcs.length_eq, ⟨cs, hcs⟩, rfl⟩

/-- The body takes what reads as pieces. -/
theorem matches_body {b : List Byte} :
    Matches jsonStringBody b ↔ ∃ units pieces, List.Forall₂ Reads units pieces ∧ units.flatten = b := by
  simp only [matches_body_iff, mem_bodyWords, all_iff_forall₂]
  constructor
  · rintro ⟨units, rfl, pieces, h⟩
    exact ⟨units, pieces, h, rfl⟩
  · rintro ⟨units, pieces, h, rfl⟩
    exact ⟨units, rfl, pieces, h⟩

/-! ### Pieces and the decoder -/

theorem Reads.spells {u : List Byte} {c : Char} (h : Reads u (.char c)) : Spells u c := by
  cases h with
  | raw c printable quote backslash => exact .raw c printable quote backslash
  | short h => exact .short h
  | unicode four value => exact .unicode four value

/-- What is spelled reads as pieces. -/
theorem Spelling.reads {b : List Byte} {cs : List Char} (h : Spelling b cs) :
    ∃ units pieces, List.Forall₂ Reads units pieces ∧ units.flatten = b := by
  obtain ⟨units, hall, rfl⟩ := h
  induction hall with
  | nil => exact ⟨[], [], .nil, rfl⟩
  | @cons u c us cs hu _ ih =>
    obtain ⟨units, pieces, hreads, hflat⟩ := ih
    cases hu with
    | raw c printable quote backslash => exact ⟨_, _, .cons (.raw c printable quote backslash) hreads, by simp [hflat]⟩
    | short h => exact ⟨_, _, .cons (.short h) hreads, by simp [hflat]⟩
    | unicode four value => exact ⟨_, _, .cons (.unicode four value) hreads, by simp [hflat]⟩
    | pair high4 low4 highValue lowValue highRange lowRange code =>
      refine ⟨_, _, .cons (.half high4 highValue (by omega)) (.cons (.half low4 lowValue (by omega)) hreads), ?_⟩
      simp [hflat]

theorem Reads.digits {u : List Byte} {v : Nat} (h : Reads u (.half v)) :
    ∃ ds, u = unicodeEscape ds ∧ ds.length = 4 ∧ hexValue ds = some v ∧ 0xd800 ≤ v ∧ v ≤ 0xdfff := by
  cases h with
  | half four value range => exact ⟨_, rfl, four, value, range⟩

/-- A high half and a low one are the spelling of a character. -/
theorem Reads.pair {u w : List Byte} {hi lo : Nat} (h : Reads u (.half hi)) (h' : Reads w (.half lo))
    (hhi : hi ≤ 0xdbff) (hlo : 0xdc00 ≤ lo) :
    ∃ c, Spells (u ++ w) c := by
  obtain ⟨ds, rfl, four, value, range⟩ := h.digits
  obtain ⟨es, rfl, four', value', range'⟩ := h'.digits
  obtain ⟨c, hc⟩ := exists_char (0x10000 + (hi - 0xd800) * 0x400 + (lo - 0xdc00)) (by unfold Nat.isValidChar; omega)
  exact ⟨c, .pair four four' value value' ⟨range.1, hhi⟩ ⟨hlo, range'.2⟩ hc⟩

/-- **Paired pieces are spelled.** -/
theorem Paired.spelling :
    ∀ {pieces : List Piece} {units : List (List Byte)}, Paired pieces → List.Forall₂ Reads units pieces →
    ∃ cs, Spelling units.flatten cs
  | [], _, _, .nil => ⟨[], Spelling.nil⟩
  | .char c :: pieces, _, hpaired, .cons hu hrest => by
    have htail : Paired pieces := hpaired
    obtain ⟨cs, hcs⟩ := Paired.spelling htail hrest
    exact ⟨c :: cs, (Spelling.single hu.spells).append hcs⟩
  | .half hi :: .half lo :: pieces, _, ⟨hhi, hlo, hpaired⟩, .cons hu (.cons hw hrest) => by
    obtain ⟨cs, hcs⟩ := Paired.spelling hpaired hrest
    obtain ⟨c, hc⟩ := hu.pair hw hhi hlo
    refine ⟨c :: cs, ?_⟩
    rw [List.flatten_cons, List.flatten_cons, ← List.append_assoc]
    exact (Spelling.single hc).append hcs

/-- The decoder after the escape of a first half. -/
def waiting (hi n : Nat) : JsonStringDecoder := ⟨.none, .start, some hi, n⟩

/-- A second half cannot come first. -/
theorem feed_low {n lo : Nat} {ds : List Byte} (hv : hexValue ds = some lo) (hfour : ds.length = 4)
    (hr : 0xdc00 ≤ lo ∧ lo ≤ 0xdfff) :
    feed (between n) (unicodeEscape ds) = none := by
  obtain ⟨b, low, nibble, hb, hw, hfeed⟩ := JsonStringDecoder.feed_four (p := none) (n := n) hv hfour
  have hpush : (JsonStringDecoder.push ⟨.unicode 3 low, .start, none, n⟩ b).1 = .invalid := by
    rw [JsonStringDecoder.push_digit, JsonStringDecoder.pushUnicodeDigit, hb]
    dsimp only
    rw [hw, if_neg (by decide), if_neg (by omega), if_pos hr]
  rw [JsonStringDecoder.feed_escape, hfeed, feed]
  split <;> simp_all

/-- After a first half nothing but a second one goes on. -/
theorem feed_waiting {n hi v : Nat} {ds : List Byte} (hv : hexValue ds = some v) (hfour : ds.length = 4)
    (hr : ¬(0xdc00 ≤ v ∧ v ≤ 0xdfff)) :
    feed (waiting hi n) (unicodeEscape ds) = none := by
  obtain ⟨b, low, nibble, hb, hw, hfeed⟩ := JsonStringDecoder.feed_four (p := some hi) (n := n) hv hfour
  have hslash : (waiting hi n).push 0x5c = (.cont, ⟨.started, .start, some hi, n⟩) := rfl
  have hpush : (JsonStringDecoder.push ⟨.unicode 3 low, .start, some hi, n⟩ b).1 = .invalid := by
    rw [JsonStringDecoder.push_digit, JsonStringDecoder.pushUnicodeDigit, hb]
    dsimp only
    rw [hw, if_neg (by decide)]
    split_ifs <;> simp_all
  rw [unicodeEscape, feed_cont hslash, feed_cont (JsonStringDecoder.push_u (some hi) n), hfeed, feed]
  split <;> simp_all

/-- A character after a first half is refused. -/
theorem Reads.char_waiting {u : List Byte} {c : Char} (h : Reads u (.char c)) (hi n : Nat) :
    feed (waiting hi n) u = none := by
  cases h with
  | raw c printable quote backslash =>
    have hraw := spells_raw_iff.1 ⟨c, printable, quote, backslash, rfl⟩
    obtain ⟨b, bs, hb, hslash⟩ : ∃ b bs, String.utf8EncodeChar c = b :: bs ∧ b ≠ 0x5c := by
      rcases hraw with ⟨b, ⟨_, _, _, hslash⟩, heq⟩ | hpast
      · refine ⟨b, [], heq, fun h => hslash ?_⟩
        rw [h]
        rfl
      · obtain ⟨lead, bs, n, lo, hi, cp, heq, hshape, _⟩ := mem_utf8Words.1 hpast
        refine ⟨lead, bs, heq, fun h => ?_⟩
        rw [h] at hshape
        cases hshape
    have hpush : ((waiting hi n).push b).1 = .invalid := by
      rw [JsonStringDecoder.push, if_pos (by simpa [waiting, JsonStringDecoder.expectsUEscape] using hslash)]
    rw [hb, feed]
    split <;> simp_all
  | @short b c h =>
    have hslash : (waiting hi n).push 0x5c = (.cont, ⟨.started, .start, some hi, n⟩) := rfl
    have hu : b ≠ 0x75 := fun hb => by
      rw [hb] at h
      cases h
    have hpush : (JsonStringDecoder.push ⟨.started, .start, some hi, n⟩ b).1 = .invalid := by
      rw [JsonStringDecoder.push, if_pos (by simpa [JsonStringDecoder.expectsUEscape] using hu)]
    rw [feed_cont hslash, feed]
    split <;> simp_all
  | unicode four value =>
    have := char_not_half c
    exact feed_waiting value four (by omega)

theorem feed_bind_none {d d' : JsonStringDecoder} {u w : List Byte} {cs : List Char} (hu : feed d u = some (cs, d'))
    (hw : feed d' w = none) :
    feed d (u ++ w) = none := by
  rw [feed_append, hu, Option.bind_some, hw, Option.map_none]

/-- **Where a half stands alone the decoder refuses, or it still waits.** -/
theorem unpaired_feed :
    ∀ {pieces : List Piece} {units : List (List Byte)}, ¬ Paired pieces → List.Forall₂ Reads units pieces → ∀ n cs d,
    feed (between n) units.flatten = some (cs, d) → d.atBoundary = false
  | [], _, hlone, _ => absurd trivial hlone
  | .char c :: pieces, _, hlone, .cons hu hrest => fun n cs d h => by
    rw [List.flatten_cons, feed_append, JsonStringDecoder.feed_spells hu.spells, Option.bind_some] at h
    obtain ⟨⟨cs', d'⟩, hfeed, heq⟩ := Option.map_eq_some_iff.1 h
    cases heq
    have htail : ¬ Paired pieces := hlone
    exact unpaired_feed htail hrest _ _ _ hfeed
  | .half hi :: pieces, _ :: units, hlone, .cons hu hrest => fun n cs d h => by
    obtain ⟨ds, rfl, four, value, range⟩ := hu.digits
    by_cases hhi : hi ≤ 0xdbff
    · have hfeed := JsonStringDecoder.feed_high (n := n) value four ⟨range.1, hhi⟩
      match pieces, units, hrest, hlone with
      | [], _, .nil, _ =>
        rw [List.flatten_cons, List.flatten_nil, List.append_nil, hfeed] at h
        cases h
        rfl
      | .char c :: _, _, .cons hw _, _ =>
        rw [List.flatten_cons, List.flatten_cons, ← List.append_assoc, feed_append,
          feed_bind_none hfeed (hw.char_waiting hi n)] at h
        cases h
      | .half lo :: pieces, _, .cons hw hrest, hlone =>
        obtain ⟨es, rfl, four', value', range'⟩ := hw.digits
        by_cases hlo : 0xdc00 ≤ lo
        · obtain ⟨c, hc⟩ := hu.pair hw hhi hlo
          rw [List.flatten_cons, List.flatten_cons, ← List.append_assoc, feed_append, JsonStringDecoder.feed_spells hc,
            Option.bind_some] at h
          obtain ⟨⟨cs', d'⟩, hfeed, heq⟩ := Option.map_eq_some_iff.1 h
          cases heq
          have htail : ¬ Paired pieces := fun hpaired => hlone ⟨hhi, hlo, hpaired⟩
          exact unpaired_feed htail hrest _ _ _ hfeed
        · rw [List.flatten_cons, List.flatten_cons, ← List.append_assoc, feed_append,
            feed_bind_none hfeed (feed_waiting value' four' (by omega))] at h
          cases h
    · rw [List.flatten_cons, feed_append, feed_low value four ⟨by omega, range.2⟩] at h
      cases h

/-! ### The three grammars -/

/-- **The three grammars of strings agree where no surrogate half stands alone, and nowhere else.**  The body, the code
points and the decoder take the same bytes, and there are as many code points as characters, exactly for the bytes that
do not read as a body with a surrogate half of its own. -/
theorem string_grammars_agree_iff (b : List Byte) :
    ((Matches jsonStringBody b ↔ ∃ n, Repeats jsonStringCodepoint n b) ∧
      ((∃ n, Repeats jsonStringCodepoint n b) ↔ ∃ cs d, new.feed b = some (cs, d) ∧ d.atBoundary = true) ∧
      ∀ n cs d, Repeats jsonStringCodepoint n b → new.feed b = some (cs, d) → n = cs.length) ↔ ¬ LoneHalf b := by
  have hrepeats : (∃ n, Repeats jsonStringCodepoint n b) ↔ ∃ cs, Spelling b cs := by
    simp only [repeats_codepoint]
    exact ⟨fun ⟨_, cs, _, h⟩ => ⟨cs, h⟩, fun ⟨cs, h⟩ => ⟨_, cs, rfl, h⟩⟩
  rw [hrepeats]
  constructor
  · rintro ⟨hbody, hdecoder, _⟩ ⟨units, pieces, hreads, rfl, hlone⟩
    obtain ⟨cs, d, hfeed, hd⟩ := hdecoder.1 (hbody.1 (matches_body.2 ⟨units, pieces, hreads, rfl⟩))
    rw [unpaired_feed hlone hreads 0 cs d hfeed] at hd
    cases hd
  · intro hpaired
    refine ⟨⟨fun h => ?_, fun ⟨cs, h⟩ => matches_body.2 (Spelling.reads h)⟩,
      ⟨fun ⟨cs, h⟩ => ?_, fun ⟨cs, d, hfeed, hd⟩ => ?_⟩, ?_⟩
    · obtain ⟨units, pieces, hreads, rfl⟩ := matches_body.1 h
      by_contra hnone
      exact hpaired ⟨units, pieces, hreads, rfl, fun h => hnone (h.spelling hreads)⟩
    · obtain ⟨d, hfeed, hd⟩ := (JsonStringDecoder.feed_iff_spelling b cs).2 h
      exact ⟨cs, d, hfeed, hd⟩
    · exact ⟨cs, (JsonStringDecoder.feed_iff_spelling b cs).1 ⟨d, hfeed, hd⟩⟩
    · intro n cs d hn hfeed
      obtain ⟨cs', rfl, hspell⟩ := repeats_codepoint.1 hn
      obtain ⟨d', hfeed', _⟩ := (JsonStringDecoder.feed_iff_spelling b cs').2 hspell
      rw [hfeed] at hfeed'
      cases hfeed'
      rfl

/-- The body takes the escape of U+D800 alone, which no code point and no run of the decoder does. -/
theorem lone_half_in_body : ¬ ∀ b : List Byte, (Matches jsonStringBody b ↔ ∃ n, Repeats jsonStringCodepoint n b) ∧
    ((∃ n, Repeats jsonStringCodepoint n b) ↔ ∃ cs d, new.feed b = some (cs, d) ∧ d.atBoundary = true) ∧
    ∀ n cs d, Repeats jsonStringCodepoint n b → new.feed b = some (cs, d) → n = cs.length := by
  intro h
  obtain ⟨hbody, hdecoder, _⟩ := h (unicodeEscape [0x64, 0x38, 0x30, 0x30])
  have hhalf : Reads (unicodeEscape [0x64, 0x38, 0x30, 0x30]) (.half 0xd800) := .half rfl rfl (by decide)
  obtain ⟨cs, d, hfeed, hd⟩ := hdecoder.1 (hbody.1 (matches_body.2 ⟨[_], [_], .cons hhalf .nil, by simp⟩))
  cases hfeed
  cases hd

end StringRegex
end MaskForge
