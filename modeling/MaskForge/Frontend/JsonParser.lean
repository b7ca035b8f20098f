import MaskForge.Frontend.JsonText
import MaskForge.Lib.Utf8
/-!
# JsonParser — the schema parser

A recursive parser over the bytes of the text and a position in them.  A byte index out of range is a panic, and the
recursion has fuel; neither ever ends a run from the start of a text.  The caps on nodes and bytes are left out.
-/
namespace MaskForge
namespace JsonParser

open Frontend (FrontendError)

/-- How a run ends without a value. -/
inductive Stop where
  | error (e : FrontendError)
  | panic
  | fuel

def malformed (message : String) : Stop := .error ⟨.malformed, message, none, none⟩

def maxParseDepth : Nat := 1024

def tooDeep : Stop := .error ⟨.internalLimitExceeded, "JSON nesting is too deep", none, none⟩

section
variable (bytes : List Byte)

def skipWs (pos : Nat) : Nat := pos + ((bytes.drop pos).takeWhile fun b => decide (IsWhitespace b)).length

def literal (word : List Byte) (ast : Ast) (pos : Nat) : Except Stop (Ast × Nat) :=
  if bytes.length < pos then .error .panic
  else if word.isPrefixOf (bytes.drop pos) then .ok (ast, pos + word.length)
  else .error (malformed "invalid literal")

def digits (pos : Nat) : Except Stop Nat :=
  let end_ := pos + ((bytes.drop pos).takeWhile fun b => decide (Decimal.IsDigit b)).length
  if end_ = pos then .error (malformed "expected a digit") else .ok end_

/-- A byte of some kind, if it comes next. -/
def skipIf (p : Byte → Bool) (pos : Nat) : Nat := if (bytes[pos]?).any p then pos + 1 else pos

/-- The digits in front of the point: a zero alone, or digits that begin with another. -/
def integerPart (pos : Nat) : Except Stop Nat :=
  match bytes[pos]? with
  | some b =>
    if b = 0x30 then .ok (pos + 1)
    else if 0x31 ≤ b.toNat ∧ b.toNat ≤ 0x39 then digits bytes pos
    else .error (malformed "expected a digit")
  | none => .error (malformed "expected a digit")

def fractionPart (pos : Nat) : Except Stop Nat := if bytes[pos]? = some 0x2e then digits bytes (pos + 1) else .ok pos

def exponentPart (pos : Nat) : Except Stop Nat :=
  if (bytes[pos]?).any fun b => decide (b = 0x65 ∨ b = 0x45) then
    digits bytes (skipIf bytes (fun b => decide (b = 0x2b ∨ b = 0x2d)) (pos + 1))
  else .ok pos

def number (start : Nat) : Except Stop (Ast × Nat) := do
  let pos ← integerPart bytes (skipIf bytes (fun b => decide (b = 0x2d)) start)
  let pos ← fractionPart bytes pos
  let pos ← exponentPart bytes pos
  if bytes.length < pos ∨ pos < start then .error .panic
  else
    let token := (bytes.drop start).take (pos - start)
    match strFromUtf8 token with
    | some _ => .ok (.num token, pos)
    | none => .error (malformed "invalid number")

def hex4 (pos : Nat) : Except Stop (Nat × Nat) :=
  if bytes.length < pos + 4 then .error (malformed "truncated unicode escape")
  else match hexValue ((bytes.drop pos).take 4) with
    | some value => .ok (value, pos + 4)
    | none => .error (malformed "invalid hex digit")

/-- The code of an escape whose four digits are `hi`, with the second half where it is a first one. -/
def codePoint (hi pos : Nat) : Except Stop (Nat × Nat) :=
  if 0xd800 ≤ hi ∧ hi ≤ 0xdbff then
    if bytes[pos]? ≠ some 0x5c ∨ bytes[pos + 1]? ≠ some 0x75 then .error (malformed "unpaired high surrogate")
    else do
      let (lo, pos) ← hex4 bytes (pos + 2)
      if ¬(0xdc00 ≤ lo ∧ lo ≤ 0xdfff) then .error (malformed "invalid low surrogate")
      else .ok (0x10000 + (hi - 0xd800) * 0x400 + (lo - 0xdc00), pos)
  else if 0xdc00 ≤ hi ∧ hi ≤ 0xdfff then .error (malformed "unexpected low surrogate")
  else .ok (hi, pos)

def unicodeEscapeChar (pos : Nat) : Except Stop (Char × Nat) := do
  let (hi, pos) ← hex4 bytes (pos + 1)
  let (code, pos) ← codePoint bytes hi pos
  match charFromU32 code with
  | some c => .ok (c, pos)
  | none => .error (malformed "invalid code point")

def escape (pos : Nat) : Except Stop (Char × Nat) :=
  match bytes[pos]? with
  | none => .error (malformed "invalid string escape")
  | some b =>
    match shortEscape b with
    | some c => .ok (c, pos + 1)
    | none => if b = 0x75 then unicodeEscapeChar bytes pos else .error (malformed "invalid string escape")

/-- How long the character of a lead byte is. -/
def utf8Len (lead : Byte) : Option Nat :=
  if lead.toNat ≤ 0x7f then some 1
  else if 0xc0 ≤ lead.toNat ∧ lead.toNat ≤ 0xdf then some 2
  else if 0xe0 ≤ lead.toNat ∧ lead.toNat ≤ 0xef then some 3
  else if 0xf0 ≤ lead.toNat ∧ lead.toNat ≤ 0xf7 then some 4
  else none

def utf8Char (pos : Nat) : Except Stop (Char × Nat) :=
  match bytes[pos]? with
  | none => .error .panic
  | some lead =>
    match utf8Len lead with
    | none => .error (malformed "invalid UTF-8 lead byte")
    | some len =>
      if bytes.length < pos + len then .error (malformed "truncated UTF-8 sequence")
      else match strFromUtf8 ((bytes.drop pos).take len) with
        | none | some [] => .error (malformed "invalid UTF-8")
        | some (c :: _) => .ok (c, pos + len)

/-- The loop of `string`, behind the opening quote. -/
def stringBody : Nat → Text → Nat → Except Stop (Text × Nat)
  | 0, _, _ => .error .fuel
  | fuel + 1, out, pos =>
    match bytes[pos]? with
    | none => .error (malformed "unterminated string")
    | some b =>
      if b = 0x22 then .ok (out, pos + 1)
      else if b = 0x5c then do
        let (c, pos) ← escape bytes (pos + 1)
        stringBody fuel (out ++ [c]) pos
      else if b.toNat < 0x20 then .error (malformed "control byte in a string")
      else do
        let (c, pos) ← utf8Char bytes pos
        stringBody fuel (out ++ [c]) pos

def string (pos : Nat) : Except Stop (Text × Nat) := stringBody bytes (bytes.length + 1) [] (pos + 1)

mutual

def value : Nat → Nat → Nat → Except Stop (Ast × Nat)
  | 0, _, _ => .error .fuel
  | fuel + 1, depth, pos =>
    match bytes[pos]? with
    | none => .error (malformed "expected a JSON value")
    | some b =>
      if b = 0x7b then if maxParseDepth < depth + 1 then .error tooDeep else object fuel (depth + 1) pos
      else if b = 0x5b then if maxParseDepth < depth + 1 then .error tooDeep else array fuel (depth + 1) pos
      else if b = 0x22 then (string bytes pos).map fun r => (.str r.1, r.2)
      else if b = 0x74 then literal bytes [0x74, 0x72, 0x75, 0x65] (.bool true) pos
      else if b = 0x66 then literal bytes [0x66, 0x61, 0x6c, 0x73, 0x65] (.bool false) pos
      else if b = 0x6e then literal bytes [0x6e, 0x75, 0x6c, 0x6c] .null pos
      else if b = 0x2d ∨ Decimal.IsDigit b then number bytes pos
      else .error (malformed "expected a JSON value")

def object : Nat → Nat → Nat → Except Stop (Ast × Nat)
  | 0, _, _ => .error .fuel
  | fuel + 1, depth, pos =>
    let pos := skipWs bytes (pos + 1)
    if bytes[pos]? = some 0x7d then .ok (.obj [], pos + 1) else objectLoop fuel depth [] pos

def objectLoop : Nat → Nat → List (Text × Ast) → Nat → Except Stop (Ast × Nat)
  | 0, _, _, _ => .error .fuel
  | fuel + 1, depth, fields, pos => do
    let pos := skipWs bytes pos
    if bytes[pos]? ≠ some 0x22 then .error (malformed "expected an object key")
    else
      let (key, pos) ← string bytes pos
      let pos := skipWs bytes pos
      if bytes[pos]? ≠ some 0x3a then .error (malformed "expected ':' after an object key")
      else
        let pos := skipWs bytes (pos + 1)
        let (v, pos) ← value fuel depth pos
        let fields := fields ++ [(key, v)]
        let pos := skipWs bytes pos
        if bytes[pos]? = some 0x2c then objectLoop fuel depth fields (pos + 1)
        else if bytes[pos]? = some 0x7d then .ok (.obj fields, pos + 1)
        else .error (malformed "expected ',' or '\x7d' in an object")

def array : Nat → Nat → Nat → Except Stop (Ast × Nat)
  | 0, _, _ => .error .fuel
  | fuel + 1, depth, pos =>
    let pos := skipWs bytes (pos + 1)
    if bytes[pos]? = some 0x5d then .ok (.arr [], pos + 1) else arrayLoop fuel depth [] pos

def arrayLoop : Nat → Nat → List Ast → Nat → Except Stop (Ast × Nat)
  | 0, _, _, _ => .error .fuel
  | fuel + 1, depth, items, pos => do
    let pos := skipWs bytes pos
    let (v, pos) ← value fuel depth pos
    let items := items ++ [v]
    let pos := skipWs bytes pos
    if bytes[pos]? = some 0x2c then arrayLoop fuel depth items (pos + 1)
    else if bytes[pos]? = some 0x5d then .ok (.arr items, pos + 1)
    else .error (malformed "expected ',' or ']' in an array")

end

end

def parse (text : List Byte) : Except Stop Ast := do
  let pos := skipWs text 0
  let (v, pos) ← value text (3 * text.length + 3) 0 pos
  if skipWs text pos ≠ text.length then .error (malformed "trailing bytes after the JSON document")
  else .ok v

end JsonParser
end MaskForge
