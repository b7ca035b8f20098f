import MaskForge.Lib.Utf8
import MaskForge.Structured.PendingScalar
import MaskForge.Structured.Scalar
/-!
# JsonString — the JSON texts of a string

A JSON text of a string is whitespace, a quote, a spelling of its characters and a quote.  What was read of one from the
inside of its body says how it goes on, and any text can be spelled.
-/
namespace MaskForge

open JsonStringDecoder (feed At Emits)

/-! ## Texts as bytes -/

/-- `str::as_bytes`. -/
def textBytes (text : Text) : List Byte := text.flatMap String.utf8EncodeChar

theorem textBytes_append (a b : Text) : textBytes (a ++ b) = textBytes a ++ textBytes b := List.flatMap_append

theorem textBytes_isPrefix {a b : Text} : textBytes a <+: textBytes b ↔ a <+: b := by
  refine ⟨utf8_isPrefix, ?_⟩
  rintro ⟨rest, rfl⟩
  rw [textBytes_append]
  exact List.prefix_append _ _

theorem textBytes_inj {a b : Text} (h : textBytes a = textBytes b) : a = b := by
  have hab : a <+: b := textBytes_isPrefix.1 (by rw [h])
  have hba : b <+: a := textBytes_isPrefix.1 (by rw [h])
  exact hab.eq_of_length_le hba.length_le

theorem textBytes_snoc (cs : Text) (c : Char) : textBytes cs ++ String.utf8EncodeChar c = textBytes (cs ++ [c]) := by
  rw [textBytes_append]
  congr 1
  exact (List.append_nil _).symm

/-! ## JSON string texts -/

/-- A JSON text, whitespace before it, of one string. -/
def JsonString (text : Text) (bytes : List Byte) : Prop :=
  ∃ body, bytes.dropWhile isWs = 0x22 :: (body ++ [0x22]) ∧ Spelling body text

theorem exists_spelling : ∀ text : Text, ∃ body, Spelling body text
  | [] => ⟨[], Spelling.nil⟩
  | c :: text => by
    obtain ⟨w, hw⟩ := JsonStringDecoder.exists_escape c
    obtain ⟨body, hbody⟩ := exists_spelling text
    exact ⟨_, (Spelling.single hw).append hbody⟩

namespace JsonStringDecoder

/-- A body at the end of a character goes on with any text. -/
theorem spelling_of_boundary {q : List Byte} {cs : Text} {d : JsonStringDecoder} (h : new.feed q = some (cs, d))
    (hd : d.atBoundary = true) (rest : Text) : ∃ more, Spelling (q ++ more) (cs ++ rest) := by
  obtain ⟨more, hmore⟩ := exists_spelling rest
  exact ⟨more, ((feed_iff_spelling q cs).1 ⟨d, h, hd⟩).append hmore⟩

/-- A body inside a character goes on with any text that starts with what the character can still be. -/
theorem spelling_of_emits {q : List Byte} {cs : Text} {d : JsonStringDecoder} {c : Char} (h : new.feed q = some (cs, d))
    (hc : d.Emits c) (rest : Text) : ∃ more, Spelling (q ++ more) (cs ++ c :: rest) := by
  obtain ⟨w, cs', d', hw⟩ := hc
  obtain ⟨done, u, heq, hspell, hat, -⟩ := feed_split (.boundary 0) h
  obtain ⟨more, hmore⟩ := hat.spells_next hw
  obtain ⟨tail, htail⟩ := exists_spelling rest
  refine ⟨more ++ tail, ?_⟩
  have hall := hspell.append ((Spelling.single hmore).append htail)
  rw [List.nil_append] at heq
  rw [heq]
  simpa only [List.append_assoc, List.singleton_append] using hall

/-- A closing quote is no character of the body. -/
theorem At.push_quote {u : List Byte} {d : JsonStringDecoder} (h : At u d) (hd : d.atBoundary = true) :
    d.push 0x22 = (.invalid, d) := by
  rw [(h.boundary_eq hd).2]
  rfl

/-- **Inside a character the end of a body comes after the character.** -/
theorem emits_of_feed {u w : List Byte} {d d' : JsonStringDecoder} {cs : Text} (hat : At u d) (hu : u ≠ [])
    (h : d.feed w = some (cs, d')) (hd : d'.atBoundary = true) : ∃ c rest, cs = c :: rest ∧ d.Emits c := by
  cases cs with
  | cons c rest => exact ⟨c, rest, rfl, w, rest, d', h⟩
  | nil =>
    obtain ⟨done, last, heq, ⟨units, hall, hunits⟩, hlast, -⟩ := feed_split hat h
    cases hall
    obtain ⟨rfl, -⟩ := hlast.boundary_eq hd
    rw [← hunits] at heq
    exact absurd (List.append_eq_nil_iff.1 heq).1 hu

end JsonStringDecoder

theorem dropWhile_append_nil {α : Type} {p : α → Bool} {a : List α} (b : List α) (h : a.dropWhile p = []) :
    (a ++ b).dropWhile p = b.dropWhile p := by
  simp [List.dropWhile_append, h]

theorem dropWhile_append_cons {α : Type} {p : α → Bool} {x : α} {a r : List α} (b : List α)
    (h : a.dropWhile p = x :: r) :
    (a ++ b).dropWhile p = x :: (r ++ b) := by
  simp [List.dropWhile_append, h]

/-- What a text that goes on to a string looks like from inside its body. -/
theorem JsonString.body {m : Text} {text q : List Byte} {b : Byte} {more : List Byte}
    (h : JsonString m (text ++ b :: more)) (quoted : text.dropWhile isWs = 0x22 :: q) :
    (more = [] ∧ b = 0x22 ∧ Spelling q m) ∨ ∃ tail, more = tail ++ [0x22] ∧ Spelling (q ++ b :: tail) m := by
  obtain ⟨body, hbody, hspell⟩ := h
  rw [dropWhile_append_cons (b :: more) quoted] at hbody
  have hq : q ++ b :: more = body ++ [0x22] := (List.cons.inj hbody).2
  rcases List.eq_nil_or_concat more with rfl | ⟨tail, last, rfl⟩
  · obtain ⟨rfl, hb⟩ := List.append_inj' hq rfl
    cases hb
    exact .inl ⟨rfl, rfl, hspell⟩
  · rw [List.concat_eq_append, ← List.cons_append, ← List.append_assoc] at hq
    obtain ⟨rfl, hlast⟩ := List.append_inj' hq rfl
    cases hlast
    exact .inr ⟨tail, by simp, hspell⟩

/-- After `\u` any character can come. -/
theorem JsonStringDecoder.emits_of_bare {q : List Byte} {cs : Text} {d : JsonStringDecoder}
    (h : new.feed q = some (cs, d))
    (hbare : d.escape = .unicode 0 0 ∧ d.pendingHighSurrogate = none) (c : Char) : d.Emits c := by
  obtain ⟨u, hat, hemits⟩ := emits_iff_spells h
  rw [hemits]
  obtain ⟨w, hw⟩ := exists_escape c
  refine ⟨w, ?_⟩
  cases hat with
  | @digits ds v n few value =>
    have hnil : ds = [] := List.length_eq_zero_iff.1 (EscapeState.unicode.inj hbare.1).1
    rw [hnil]
    exact hw
  | boundary | tail | started | half | halfStarted => cases hbare.1
  | halfDigits => cases hbare.2

end MaskForge
