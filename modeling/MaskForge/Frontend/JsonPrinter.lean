import MaskForge.Frontend.JsonComplete
/-!
# JsonPrinter — the canonical JSON of a syntax tree

The printer writes no white space and escapes only what it must.  What it writes for a tree the parser returned is a
JSON text of that tree, so the parser reads it back.
-/
namespace MaskForge
namespace JsonParser

open NumberForm (NumberText)

/-! ### The printer -/

/-- Four lower-case digits, as `:04x` writes them. -/
def hex4Digits (n : Nat) : List Byte := [n / 0x1000 % 0x10, n / 0x100 % 0x10, n / 0x10 % 0x10, n % 0x10].map hexLetter

def writeChar (c : Char) : List Byte :=
  if c = '"' then [0x5c, 0x22]
  else if c = '\\' then [0x5c, 0x5c]
  else if c = '\n' then [0x5c, 0x6e]
  else if c = '\r' then [0x5c, 0x72]
  else if c = '\t' then [0x5c, 0x74]
  else if c = '\x08' then [0x5c, 0x62]
  else if c = '\x0c' then [0x5c, 0x66]
  else if c.toNat < 0x20 then 0x5c :: 0x75 :: hex4Digits c.toNat
  else String.utf8EncodeChar c

def writeJsonString (s : Text) : List Byte := 0x22 :: s.flatMap writeChar ++ [0x22]

mutual

/-- What `write_canonical` pushes, in UTF-8. -/
def writeCanonical : Ast → List Byte
  | .null => [0x6e, 0x75, 0x6c, 0x6c]
  | .bool true => [0x74, 0x72, 0x75, 0x65]
  | .bool false => [0x66, 0x61, 0x6c, 0x73, 0x65]
  | .num token => token
  | .str s => writeJsonString s
  | .arr items => 0x5b :: writeItems items ++ [0x5d]
  | .obj fields => 0x7b :: writeFields fields ++ [0x7d]

/-- A comma stands before each item but the first. -/
def writeItems : List Ast → List Byte
  | [] => []
  | [a] => writeCanonical a
  | a :: b :: as => writeCanonical a ++ 0x2c :: writeItems (b :: as)

def writeFields : List (Text × Ast) → List Byte
  | [] => []
  | [(key, a)] => writeJsonString key ++ 0x3a :: writeCanonical a
  | (key, a) :: m :: ms => writeJsonString key ++ 0x3a :: writeCanonical a ++ 0x2c :: writeFields (m :: ms)

end

def canonicalJson (ast : Ast) : List Byte := writeCanonical ast

/-! ### What is printed is JSON -/

theorem hexValue_hex4Digits {n : Nat} (h : n < 0x10000) : hexValue (hex4Digits n) = some n := by
  simp only [hexValue, hex4Digits, List.map_cons, List.map_nil, List.foldl_cons, List.foldl_nil, Option.bind_some,
    hexDigit_hexLetter (Nat.mod_lt _ (by decide : 0 < 0x10)), Option.map_some]
  congr 1
  omega

/-- **Every character is printed as a spelling of itself.** -/
theorem spells_writeChar (c : Char) : Spells (writeChar c) c := by
  unfold writeChar
  split_ifs with h₁ h₂ h₃ h₄ h₅ h₆ h₇ h₈
  · exact h₁ ▸ .short rfl
  · exact h₂ ▸ .short rfl
  · exact h₃ ▸ .short rfl
  · exact h₄ ▸ .short rfl
  · exact h₅ ▸ .short rfl
  · exact h₆ ▸ .short rfl
  · exact h₇ ▸ .short rfl
  · exact .unicode rfl (hexValue_hex4Digits (by omega))
  · exact .raw c (by omega) h₁ h₂

theorem spelling_flatMap : ∀ s : Text, Spelling (s.flatMap writeChar) s
  | [] => Spelling.nil
  | c :: s => (Spelling.single (spells_writeChar c)).append (spelling_flatMap s)

theorem quoted_writeJsonString (s : Text) : Quoted (writeJsonString s) s := ⟨_, spelling_flatMap s, rfl⟩

theorem whitespace_nil : Whitespace [] := fun _ h => absurd h List.not_mem_nil

/-- What the printer writes for a form of the grammar. -/
def writeForm : JsonForm → List Byte
  | .value a => writeCanonical a
  | .items as => writeItems as
  | .members ms => writeFields ms

theorem items_ne_nil {as : List Ast} {w : List Byte} (h : Derives (.items as) w) : as ≠ [] := by
  cases h <;> exact List.cons_ne_nil _ _

theorem members_ne_nil {ms : List (Text × Ast)} {w : List Byte} (h : Derives (.members ms) w) : ms ≠ [] := by
  cases h <;> exact List.cons_ne_nil _ _

/-- **The canonical text of what is derived derives it too.** -/
theorem derives_writeForm {form : JsonForm} {w : List Byte} (h : Derives form w) : Derives form (writeForm form) := by
  induction h with
  | null => exact .null
  | bool_true => exact .bool_true
  | bool_false => exact .bool_false
  | num t json => exact .num t json
  | @str w s _ => exact .str (quoted_writeJsonString s)
  | arr_nil _ => exact .arr_nil whitespace_nil
  | arr _ ih => exact .arr ih
  | obj_nil _ => exact .obj_nil whitespace_nil
  | obj _ ih => exact .obj ih
  | @item u v w a _ _ _ ih =>
    have hd := Derives.item whitespace_nil ih whitespace_nil
    simpa [writeForm, writeItems] using hd
  | @items u v w rest a as _ _ _ more ih ihMore =>
    obtain ⟨b, as, rfl⟩ := List.exists_cons_of_ne_nil (items_ne_nil more)
    have hd := Derives.items whitespace_nil ih whitespace_nil ihMore
    simpa [writeForm, writeItems] using hd
  | @member u k u' w v w' key a _ _ _ _ _ _ ih =>
    have hd := Derives.member whitespace_nil (quoted_writeJsonString key) whitespace_nil whitespace_nil ih
      whitespace_nil
    simpa [writeForm, writeFields] using hd
  | @members u k u' w v w' rest key a ms _ _ _ _ _ _ more ih ihMore =>
    obtain ⟨m, ms, rfl⟩ := List.exists_cons_of_ne_nil (members_ne_nil more)
    have hd := Derives.members whitespace_nil (quoted_writeJsonString key) whitespace_nil whitespace_nil ih
      whitespace_nil ihMore
    simpa [writeForm, writeFields] using hd

/-- The parser reads the canonical text of what it returned. -/
theorem parse_canonicalJson {text : List Byte} {a : Ast} (h : parse text = .ok a) :
    parse (canonicalJson a) = .ok a := by
  obtain ⟨⟨u, w, v, _, hw, _, _⟩, hdepth⟩ := (parse_iff text a).1 h
  refine (parse_iff _ _).2 ⟨⟨[], canonicalJson a, [], whitespace_nil, derives_writeForm hw, whitespace_nil, ?_⟩, hdepth⟩
  rw [List.nil_append, List.append_nil]

/-- **The schema parser accepts exactly JSON and its printer inverts it.**  A text is parsed if and only if it is a
JSON text nested at most 1024 deep, and then to the tree the grammar derives; no text makes the parser panic; and what
is printed for a parsed tree parses to that tree, so no two parsed trees are printed alike. -/
theorem parser_exact :
    (∀ text a, parse text = .ok a ↔ JsonText a text ∧ a.depth ≤ maxParseDepth) ∧
      (∀ text, Proper (parse text)) ∧
      (∀ text a, parse text = .ok a → parse (canonicalJson a) = .ok a) ∧
      ∀ text text' a b, parse text = .ok a → parse text' = .ok b → canonicalJson a = canonicalJson b → a = b := by
  refine ⟨parse_iff, parse_proper, fun text a => parse_canonicalJson, fun text text' a b ha hb heq => ?_⟩
  have hread := parse_canonicalJson ha
  rw [heq, parse_canonicalJson hb] at hread
  exact (Except.ok.inj hread).symm

end JsonParser
end MaskForge
