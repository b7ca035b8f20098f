import MaskForge.Automaton.IntegerRegex
import MaskForge.Ir.Routing
import MaskForge.Lib.Outcome
import MaskForge.Lib.Utf8
/-!
# LowerNode — a node as the text of a byte pattern

A node is lowered after its children, each to the text of a pattern; the nodes reached from a root are lowered in arena
order.  Some nodes have no text: those for the structured engine, and those that are compiled to automata directly.
-/
namespace MaskForge
namespace Ir

/-- The characters of a `str`. -/
def Str.chars (s : Str) : List Char := (strFromUtf8 s.bytes).getD []

def internal (what : String) : CompileError := ⟨.internalLimitExceeded, .l2, what⟩

/-- `UnsupportedReason::StructuredBackendRequired`, as an error. -/
def structuredBackendRequired : CompileError :=
  ⟨.unsupported, .l3, "this schema needs the structured backend, not the byte-DFA compiler: check " ++
    "SchemaIR::requires_structured_backend() before calling compile_ir, or use a " ++
    "caller that already dispatches automatically (Python: ConstraintSession.from_json_schema)"⟩

/-- A computation of the compiler; it does not come back where it panics. -/
abbrev Compile (α : Type) := Outcome CompileError α

/-- `ok_or_else`. -/
def need {α : Type} (o : Option α) (err : CompileError) : Compile α := .ofExcept (fetch o err)

/-! ### Texts -/

def jsonNumberRe : List Char := r"-?(?:0|[1-9][0-9]*)(?:\.[0-9]+)?(?:[eE][+-]?[0-9]+)?".toList

def jsonWsRe : List Char := r"[\x20\x09\x0A\x0D]*".toList

def colonSep : List Char := jsonWsRe ++ ':' :: jsonWsRe

def commaSep : List Char := jsonWsRe ++ ',' :: jsonWsRe

/-- `str::len`. -/
def utf8Len (s : List Char) : Nat := (s.map Char.utf8Size).sum

def decimal (n : Nat) : List Char := Nat.toDigits 10 n

/-- `(?:…)`. -/
def group (s : List Char) : List Char := "(?:".toList ++ s ++ [')']

/-- `\[…\]`, with whitespace inside. -/
def bracketed (body : List Char) : List Char := ['\\', '['] ++ jsonWsRe ++ body ++ jsonWsRe ++ ['\\', ']']

/-- `(?:…|…)`, the longest first; ties keep their order. -/
def longestFirst (alts : List (List Char)) : List Char :=
  group (['|'].intercalate (alts.mergeSort fun a b => decide (utf8Len b ≤ utf8Len a)))

/-- `{:04x}`. -/
def hexCode (n : Nat) : List Char :=
  let digits := Nat.toDigits 16 n
  List.replicate (4 - digits.length) '0' ++ digits

def jsonEncodeChar (c : Char) : List Char :=
  if c = '"' then ['\\', '"']
  else if c = '\\' then ['\\', '\\']
  else if c = '\n' then ['\\', 'n']
  else if c = '\r' then ['\\', 'r']
  else if c = '\t' then ['\\', 't']
  else if c = '\x08' then ['\\', 'b']
  else if c = '\x0c' then ['\\', 'f']
  else if c.toNat < 0x20 then '\\' :: 'u' :: hexCode c.toNat
  else [c]

def jsonEncode (s : List Char) : List Char := s.flatMap jsonEncodeChar

def regexMeta : List Char := ['\\', '.', '+', '*', '?', '(', ')', '[', ']', '{', '}', '^', '$', '|']

/-- `push_escaped`, as what it pushes. -/
def pushEscaped (c : Char) : List Char := if c ∈ regexMeta then ['\\', c] else [c]

def escapeRegex (s : List Char) : List Char := '"' :: (s.flatMap pushEscaped ++ ['"'])

/-- The scan of `json_literal_regex`: inside a string, or between structural bytes. -/
def literalFrom : (inString escaped : Bool) → List Char → List Char
  | _, _, [] => []
  | true, escaped, c :: s => pushEscaped c ++
    (if escaped then literalFrom true false s
    else if c = '\\' then literalFrom true true s
    else literalFrom (c ≠ '"') false s)
  | false, escaped, c :: s =>
    if c = '"' then pushEscaped c ++ literalFrom true escaped s
    else if c ∈ ['{', '}', '[', ']', ':', ','] then jsonWsRe ++ pushEscaped c ++ jsonWsRe ++ literalFrom false escaped s
    else pushEscaped c ++ literalFrom false escaped s

def jsonLiteralRegex (s : List Char) : List Char := literalFrom false false s

def scalarRegex : ScalarLit → List Char
  | .null => "null".toList
  | .bool true => "true".toList
  | .bool false => "false".toList
  | .int i => (toString i.toInt).toList
  | .str s => escapeRegex (jsonEncode s.chars)
  | .json s => jsonLiteralRegex s.chars

def quantifier : Option UInt32 → Option UInt32 → List Char
  | some a, some b => '{' :: (decimal a.toNat ++ ',' :: (decimal b.toNat ++ ['}']))
  | some a, none => '{' :: (decimal a.toNat ++ [',', '}'])
  | none, some b => '{' :: '0' :: ',' :: (decimal b.toNat ++ ['}'])
  | none, none => ['*']

/-- `s{lo,hi}`, or `s{lo,}`. -/
def counted (s : List Char) (lo : Nat) (hi : Option Nat) : List Char :=
  s ++ '{' :: (decimal lo ++ ',' :: ((hi.map decimal).getD [] ++ ['}']))

def arrayBody (element : List Char) (min : Nat) (max : Option Nat) : List Char :=
  let e := group element
  let more := group (commaSep ++ e)
  match max with
  | none => if min = 0 then group (e ++ more ++ ['*']) ++ ['?'] else e ++ counted more (min - 1) none
  | some 0 => []
  | some max => if min = 0 then group (e ++ counted more 0 (some (max - 1))) ++ ['?'] else e ++ counted more (min - 1)
      (some (max - 1))

/-- The first positions match the elements, the others the tail; shorter lengths are branches of their own. -/
def tupleBody (elems : List (List Char)) (tail : Option (List Char)) (min : Nat) (max : Option Nat) : List Char :=
  let n := elems.length
  let join := fun k => commaSep.intercalate ((List.range k).map fun i => group (elems[i]?.getD (tail.getD [])))
  let lengths := fun lo hi => (List.range' lo (hi - lo)).map join
  let alts := match tail, max with
    | none, max => lengths min ((max.elim n (Nat.min · n)) + 1)
    | some t, some hi =>
      if hi < n then lengths min (hi + 1)
      else
        let more := if hi - n = 0 then [] else counted (group (commaSep ++ group t)) (min - n) (some (hi - n))
        lengths min n ++ [join n ++ more]
    | some t, none =>
      let more := if min - n =
        0 then group (commaSep ++ group t) ++ ['*'] else counted (group (commaSep ++ group t)) (min - n) none
      lengths min (Nat.max min n) ++ [join n ++ more]
  longestFirst alts

/-! ### Nodes -/

section
variable (w : SchemaIRWire)

def maxArrayBodyBytes : Nat := 2 ^ 16

def requireRegexFits (len : Nat) : Except CompileError Unit :=
  check (decide (len ≤ maxArrayBodyBytes)) structuredBackendRequired

/-- The edges `lower_node` follows. -/
def nodeChildren : Node → Except CompileError (List NodeId)
  | .array (.schema id) _ _ _ _ _ => .ok [id]
  | .array .allowAny _ _ _ _ _ => .ok []
  | .tuple prefixes tail _ _ _ _ _ => do
    let ids ← fetch (w.refsAt prefixes) (internal "tuple ref")
    return ids ++ tail.toList
  | .object fields _ _ _ _ => do
    let props ← fetch (w.propsAt fields) (internal "object ref")
    return props.map Prod.snd
  | .openObject known _ patterns additional propertyNames _ _ _ _ => do
    let knownProps ← fetch (w.propsAt known) (internal "open object known ref")
    let patternProps ← fetch (w.propsAt patterns) (internal "open object pattern ref")
    return knownProps.map Prod.snd ++ patternProps.map Prod.snd ++ additional.refs ++ propertyNames.toList
  | .union branches | .intersection branches | .exactlyOne branches => fetch (w.refsAt branches) (internal "branch ref")
  | .not inner => .ok [inner]
  | .dynamicRef initialTarget _ => .ok [initialTarget]
  | .unevaluated _ scope schema => .ok [scope, schema]
  | _ => .ok []

def childText (frag : List (List Char)) (id : NodeId) : Except CompileError (List Char) :=
  fetch frag[id.toNat]? (internal "child fragment missing")

def lowerNode (node : Node) (frag : List (List Char)) : Compile (List Char) :=
  match node with
  | .null => pure "null".toList
  | .boolean => pure "(?:true|false)".toList
  | .never => pure r"[^\x00-\xff]".toList
  | .stringConst value => do
    let s ← need (w.strAt value) (internal "string ref")
    return escapeRegex (jsonEncode s.chars)
  | .stringPattern regex minLen maxLen charset => do
    let base ← need (w.strAt regex) (internal "pattern ref")
    let body := match charset with
      | .asciiPrintableNoQuoteBackslash | .utf8CountedCodepoints => group base.chars ++ quantifier minLen maxLen
      | .utf8Any => group base.chars
    return '"' :: (body ++ ['"'])
  | .integer minimum maximum multipleOf =>
    if multipleOf.isSome then throw (internal "multipleOf must use direct graph compilation")
    else .ofOption (IntegerRegex.integerRegex minimum maximum)
  | .number integerOnly minimum maximum multipleOf =>
    if integerOnly || minimum.isSome || maximum.isSome || multipleOf.isSome then throw structuredBackendRequired
    else pure jsonNumberRe
  | .lexicalNumber regex => do
    let s ← need (w.strAt regex) (internal "lexical number pattern")
    return s.chars
  | .enum values => do
    let lits ← need (w.litsAt values) (internal "enum ref")
    return longestFirst (lits.map scalarRegex)
  | .array items minItems maxItems uniqueItems contains _ =>
    if uniqueItems || contains.isSome then throw structuredBackendRequired
    else match items with
      | .allowAny => throw structuredBackendRequired
      | .schema id => do
        let elem ← .ofExcept (childText frag id)
        let body := arrayBody elem minItems.toNat (maxItems.map UInt32.toNat)
        let _ ← .ofExcept (requireRegexFits (utf8Len body))
        return bracketed body
  | .tuple prefixes tail minItems maxItems uniqueItems _ contains =>
    if uniqueItems || contains.isSome then throw structuredBackendRequired
    else do
      let ids ← need (w.refsAt prefixes) (internal "tuple ref")
      let elems ← Outcome.collect (fun id => .ofExcept (childText frag id)) ids
      let tail ← Outcome.optional (fun id => .ofExcept (childText frag id)) tail
      let body := tupleBody elems tail minItems.toNat (maxItems.map UInt32.toNat)
      let _ ← .ofExcept (requireRegexFits (utf8Len body))
      return bracketed body
  | .object _ _ _ dependent dependentRequired =>
    if (w.propsAt dependent).any (fun items => !items.isEmpty) ||
        (w.dependentRequiredAt dependentRequired).any (fun items => !items.isEmpty) then throw structuredBackendRequired
    else throw (internal "object must use direct graph compilation")
  | .openObject .. => throw structuredBackendRequired
  | .union _ => throw (internal "union must use direct graph compilation")
  | .intersection _ => throw (internal "intersection must use direct graph compilation")
  | .exactlyOne _ => throw (internal "oneOf must use direct graph compilation")
  | .not _ | .ref _ | .dynamicRef .. | .unevaluated .. => throw structuredBackendRequired
  | .unsupported .. => throw (internal "unsupported node reached the compiler")

/-! ### All nodes under a root -/

/-- The stack loop of `reachable_from`, the top of the stack first. -/
def reachLoop : Nat → List NodeId → List Bool → Compile (List Bool)
  | 0, _, _ => .ofOption none
  | _ + 1, [], reached => pure reached
  | fuel + 1, id :: stack, reached =>
    if reached[id.toNat]?.getD true then reachLoop fuel stack reached
    else do
      let node ← need (w.node id) (internal "node id out of range")
      let kids ← .ofExcept (nodeChildren w node)
      reachLoop fuel (kids.reverse ++ stack) (reached.set id.toNat true)

/-- A turn for the root, one for every edge, and a last one. -/
def reachTurns : Nat := (w.nodes.map fun node => ((nodeChildren w node).toOption.getD []).length).sum + 2

def reachableFrom (root : NodeId) : Compile (List Bool) :=
  reachLoop w (reachTurns w) [root] (List.replicate w.nodes.length false)

/-- The loop of `lower_reachable` over the numbered nodes. -/
def lowerNodes (reachable : List Bool) : List (Node × Nat) → List (List Char) → Compile (List (List Char))
  | [], frag => pure frag
  | (node, i) :: rest, frag =>
    if reachable[i]?.getD false then do
      let text ← lowerNode w node frag
      lowerNodes reachable rest (frag.set i text)
    else lowerNodes reachable rest frag

def lowerReachable (root : NodeId) : Compile (List Char) := do
  let reachable ← reachableFrom w root
  let frag ← lowerNodes w reachable w.nodes.zipIdx (List.replicate w.nodes.length [])
  need frag[root.toNat]? (internal "root fragment missing")

end

end Ir
end MaskForge
