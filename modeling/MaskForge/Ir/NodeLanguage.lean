import MaskForge.Ir.CompileNode
import MaskForge.Lib.Phrase
import MaskForge.Structured.AnyLanguage
/-!
# NodeLanguage — the spellings of a node

A node of the automaton path has a language of JSON texts.  Strings and the texts of mixed enums are spelled in one
way, the members of an enum of strings in every way; arrays and objects have white space around their structural
characters; the combinators combine the languages of their branches.  What a pattern from a schema stands for is
not looked into.
-/
namespace MaskForge
namespace Ir

open Derivative (word)
open AnyJson (spaces numbers)
open IntegerRegex (CanonicalInteger integerValue)
open Phrase (between series joined)
open RegexNotation (Patterns)

/-- The bytes of a text. -/
def utf8 (s : List Char) : List Byte := s.flatMap String.utf8EncodeChar

/-! ### Pieces -/

/-- A structural character, with white space around it. -/
def around (b : Byte) : Language Byte := spaces * (word [b] * spaces)

def comma : Language Byte := around 0x2c

def colon : Language Byte := around 0x3a

/-- Between two structural characters, with white space inside. -/
def enclosed (opening closing : Byte) (L : Language Byte) : Language Byte :=
  word [opening] * (spaces * (L * (spaces * word [closing])))

/-- The one spelling of a string that is written. -/
def quoted (s : List Char) : List Byte := 0x22 :: (utf8 (jsonEncode s) ++ [0x22])

/-- The characters of a JSON text; those that are structural, outside its strings, are marked. -/
def structural : (inString escaped : Bool) → List Char → List (Char × Bool)
  | _, _, [] => []
  | true, escaped, c :: s => (c, false) ::
    (if escaped then structural true false s
    else if c = '\\' then structural true true s
    else structural (c ≠ '"') false s)
  | false, escaped, c :: s =>
    if c = '"' then (c, false) :: structural true escaped s
    else (c, decide (c ∈ ['{', '}', '[', ']', ':', ','])) :: structural false escaped s

/-- A JSON text, with white space around its structural characters. -/
def spacedText (s : List Char) : Language Byte :=
  ((structural false false s).map fun c => if c.2 then spaces * (word (String.utf8EncodeChar c.1) * spaces)
    else word (String.utf8EncodeChar c.1)).prod

def ScalarLit.spelling : ScalarLit → Language Byte
  | .null => word literalNull
  | .bool true => word literalTrue
  | .bool false => word literalFalse
  | .int i => word (utf8 (toString i.toInt).toList)
  | .str s => word (quoted s.chars)
  | .json s => spacedText s.chars

/-- How many items there may be. -/
def counts (min : UInt32) (max : Option UInt32) : Set ℕ := {n | min.toNat ≤ n ∧ ∀ m, max = some m → n ≤ m.toNat}

/-! ### Nodes -/

section
variable (w : SchemaIRWire) (P : Patterns)

/-- A string of the arena. -/
def SchemaIRWire.textAt (r : StrRef) : List Char := ((w.strAt r).map Str.chars).getD []

section
variable (child : NodeId → Language Byte)

/-- The words of the fields in some order, the required ones among them: a name, a colon and a value. -/
def objectBody (fields : List (StrRef × NodeId)) (required : ℕ → Bool) : Language Byte :=
  {text | ∃ order : List ℕ, order.Nodup ∧ (∀ i ∈ order, i < fields.length) ∧ (∀ i < fields.length, required i = true →
    i ∈ order) ∧
    text ∈ joined comma (order.map fun i => (fields[i]?.map fun f => word (quoted (w.textAt f.1)) *
      (colon * child f.2)).getD 0)}

/-- The spellings of a node, from those of its children; no node of the structured path has any. -/
def Node.spelling : Node → Language Byte
  | .null => word literalNull
  | .boolean => word literalTrue + word literalFalse
  | .never => 0
  | .stringConst value => word (quoted (w.textAt value))
  | .stringPattern regex minLen maxLen charset =>
    let unit := (P.alternatives (w.textAt regex)).getD 0
    word [0x22] * ((if charset =
      .utf8Any then unit else between unit ((minLen.map UInt32.toNat).getD 0) (maxLen.map UInt32.toNat)) * word [0x22])
  | .integer minimum maximum multipleOf => {text | CanonicalInteger text ∧
      (∀ lo, minimum = some lo → lo.toInt ≤ integerValue text) ∧
      (∀ hi, maximum = some hi → integerValue text ≤ hi.toInt) ∧ ∀ m, multipleOf = some m →
      (m.toNat : ℤ) ∣ integerValue text}
  | .number false none none none => numbers
  | .lexicalNumber regex => (P.sequence (w.textAt regex)).getD 0
  | .enum values =>
    let literals := (w.litsAt values).getD []
    if literals.all ScalarLit.isStr then
      {text | ∃ s, .str s ∈ literals ∧ ∃ body, text = 0x22 :: (body ++ [0x22]) ∧ Spelling body s.chars}
    else (literals.map ScalarLit.spelling).sum
  | .array (.schema item) minItems maxItems false none _ =>
    enclosed 0x5b 0x5d (series comma (fun _ => child item) (counts minItems maxItems))
  | .tuple prefixes tail minItems maxItems false _ none =>
    let ids := branchRefs w prefixes
    enclosed 0x5b 0x5d (series comma (fun i => ((ids[i]?.or tail).map child).getD 0)
      {n | n ∈ counts minItems maxItems ∧ (tail = none → n ≤ ids.length)})
  | .object fields required _ _ _ => enclosed 0x7b 0x7d (objectBody w child ((w.propsAt fields).getD [])
      (w.isRequired required))
  | .union branches => ((branchRefs w branches).map child).sum
  | .intersection branches => {text | ∀ id ∈ branchRefs w branches, text ∈ child id}
  | .exactlyOne branches => {text | ∃! i : ℕ, ∃ id, (branchRefs w branches)[i]? = some id ∧ text ∈ child id}
  | _ => 0

end

/-- **The spellings of a node of the arena**; its children stand in front of it. -/
def spelling (i : ℕ) : Language Byte :=
  match w.nodes[i]? with
  | none => 0
  | some node => node.spelling w P fun child => if _h : child.toNat < i then spelling child.toNat else 0
termination_by i

end

end Ir
end MaskForge
