import MaskForge.Primitives
/-!
# Schema — the data of the schema IR

The arena a schema is lowered to: a list of nodes whose children are indices into it, and the side blobs their runs of
strings, literals, properties, bits and branches point into.  `SchemaIRWire` has the frozen fields in wire order; the
accessors resolve a run or say it is out of range.  Integers keep the widths the format gives them.
-/
namespace MaskForge

/-- How an object without `additionalProperties` is closed. -/
inductive ObjectClosure where
  | rejectOpenObjects
  | assumeClosedProfile
  | forbidden
  | allowOpenProfile
  deriving DecidableEq

inductive UnsupportedPolicy where
  | rejectAtCompile
  deriving DecidableEq

structure CompileOptions where
  objectClosure : ObjectClosure
  formatAssertion : Bool
  unsupportedPolicy : UnsupportedPolicy
  maxDiagnostics : UInt32
  deriving DecidableEq

inductive UnevaluatedKind where
  | properties
  | items
  deriving DecidableEq, Repr

namespace Ir

/-! ### Strings -/

/-- The ranges the bytes after a lead byte must fall in. -/
def utf8Tail (b : Byte) : Option (List (Byte × Byte)) :=
  if b < 0x80 then some []
  else if 0xc2 ≤ b ∧ b ≤ 0xdf then some [(0x80, 0xbf)]
  else if b = 0xe0 then some [(0xa0, 0xbf), (0x80, 0xbf)]
  else if b = 0xed then some [(0x80, 0x9f), (0x80, 0xbf)]
  else if 0xe1 ≤ b ∧ b ≤ 0xef then some [(0x80, 0xbf), (0x80, 0xbf)]
  else if b = 0xf0 then some [(0x90, 0xbf), (0x80, 0xbf), (0x80, 0xbf)]
  else if 0xf1 ≤ b ∧ b ≤ 0xf3 then some [(0x80, 0xbf), (0x80, 0xbf), (0x80, 0xbf)]
  else if b = 0xf4 then some [(0x80, 0x8f), (0x80, 0xbf), (0x80, 0xbf)]
  else none

def utf8Next : List (Byte × Byte) → Byte → Option (List (Byte × Byte))
  | [], b => utf8Tail b
  | (lo, hi) :: rest, b => if lo ≤ b ∧ b ≤ hi then some rest else none

/-- `std::str::from_utf8` succeeds. -/
def utf8Valid (bytes : List Byte) : Bool := bytes.foldlM utf8Next [] == some []

/-- A `str`: bytes that are UTF-8. -/
def Str := { bytes : List Byte // utf8Valid bytes = true }
  deriving DecidableEq

namespace Str

def bytes (s : Str) : List Byte := s.val

def ofBytes (bytes : List Byte) : Option Str := if h : utf8Valid bytes = true then some ⟨bytes, h⟩ else none

/-- `str` is ordered by its bytes. -/
def lt (s t : Str) : Bool := decide (s.bytes < t.bytes)

theorem ofBytes_some {bytes : List Byte} {s : Str} (h : ofBytes bytes = some s) : s.bytes = bytes := by
  unfold ofBytes at h
  split at h
  · cases h
    rfl
  · cases h

end Str

/-- The bytes of a text. -/
def ascii (text : String) : List Byte := text.toUTF8.data.toList

/-- `JSON_STRING_BODY`: the text of an unconstrained string's pattern. -/
def jsonStringBody : List Byte := ascii (
  r#"(?:[\x20-\x21\x23-\x5b\x5d-\x7f]|"# ++
  r"[\xc2-\xdf][\x80-\xbf]" ++
  r"|\xe0[\xa0-\xbf][\x80-\xbf]|[\xe1-\xec][\x80-\xbf][\x80-\xbf]" ++
  r"|\xed[\x80-\x9f][\x80-\xbf]|[\xee-\xef][\x80-\xbf][\x80-\xbf]" ++
  r"|\xf0[\x90-\xbf][\x80-\xbf][\x80-\xbf]|[\xf1-\xf3][\x80-\xbf][\x80-\xbf][\x80-\xbf]" ++
  r"|\xf4[\x80-\x8f][\x80-\xbf][\x80-\xbf]" ++
  "|\\\\(?:[\"\\\\/bfnrt]|u[0-9a-fA-F]\x7b4\x7d))*")

/-- `JSON_STRING_CODEPOINT`: one code point of a JSON string. -/
def jsonStringCodepoint : List Byte := ascii (
  r#"(?:[\x20\x21\x23-\x5b\x5d-\x7f]|\\["\\/bfnrt]"# ++
  "|\\\\u(?:[0-9a-ceA-CE][0-9a-fA-F]\x7b3\x7d|[fF][0-9a-fA-F]\x7b3\x7d|[dD][0-7][0-9a-fA-F]\x7b2\x7d)" ++
  "|\\\\u[dD][89abAB][0-9a-fA-F]\x7b2\x7d\\\\u[dD][c-fC-F][0-9a-fA-F]\x7b2\x7d" ++
  r"|[\xc2-\xdf][\x80-\xbf]" ++
  r"|\xe0[\xa0-\xbf][\x80-\xbf]|[\xe1-\xec][\x80-\xbf][\x80-\xbf]" ++
  r"|\xed[\x80-\x9f][\x80-\xbf]|[\xee-\xef][\x80-\xbf][\x80-\xbf]" ++
  r"|\xf0[\x90-\xbf][\x80-\xbf][\x80-\xbf]|[\xf1-\xf3][\x80-\xbf][\x80-\xbf][\x80-\xbf]" ++
  r"|\xf4[\x80-\x8f][\x80-\xbf][\x80-\xbf])")

/-! ### Constants -/

def irVersion : UInt16 := 6
def maxNodes : Nat := 2 ^ 18
def maxStringsBytes : Nat := 8 * 1024 * 1024
def maxLiterals : Nat := 2 ^ 18
def maxLiteralStrBytes : Nat := 8 * 1024 * 1024
def maxProps : Nat := 2 ^ 18
def maxDependentRequiredPairs : Nat := 2 ^ 18
def maxRequiredWords : Nat := 2 ^ 18
def maxDiagnosticCount : Nat := 2 ^ 16
def maxNodeRefs : Nat := 2 ^ 18
def maxResources : Nat := 2 ^ 16
def maxAnchors : Nat := 2 ^ 18
def maxSafeShuffleFields : Nat := 4
def maxUnrolledCodepointLen : UInt32 := 256
def maxUnrolledArrayItems : UInt32 := 64
def maxUnrolledEnum : Nat := 128

/-! ### Nodes -/

/-- A run in a side blob: where it starts and how many elements it has. -/
structure SliceRef where
  off : UInt32
  len : UInt32
  deriving DecidableEq

abbrev StrRef := SliceRef
abbrev LitSlice := SliceRef
abbrev PropSlice := SliceRef
abbrev DependentRequiredSlice := SliceRef
/-- The first word, and the number of fields the words have a bit for. -/
abbrev BitSlice := SliceRef
abbrev RefSlice := SliceRef
abbrev AnchorSlice := SliceRef

abbrev NodeId := UInt32
abbrev ResourceId := UInt32
abbrev AnchorId := UInt32
/-- An `i128`, by its bits. -/
abbrev I128 := BitVec 128

structure ResourceRecord where
  canonicalUri : Option StrRef
  root : NodeId
  staticAnchors : AnchorSlice
  dynamicAnchors : AnchorSlice
  deriving DecidableEq

structure AnchorRecord where
  resource : ResourceId
  name : StrRef
  target : NodeId
  deriving DecidableEq

inductive ScalarLit where
  | null
  | bool (b : Bool)
  | int (i : Int64)
  | str (s : Str)
  | json (s : Str)
  deriving DecidableEq

inductive Charset where
  | utf8Any
  | asciiPrintableNoQuoteBackslash
  | utf8CountedCodepoints
  deriving DecidableEq

/-! What an array, an object or a `contains` asks of further members; `δ` is what stands for a schema. -/

inductive AdditionalPolicy (δ : Type) where
  | forbid
  | allowAny
  | schema (id : δ)
  | «open»
  deriving DecidableEq

inductive ItemsPolicy (δ : Type) where
  | schema (id : δ)
  | allowAny
  deriving DecidableEq

inductive ContainsPolicy (δ : Type) where
  | never
  | always
  | schema (id : δ)
  deriving DecidableEq

structure ContainsConstraint (δ : Type) where
  policy : ContainsPolicy δ
  min : UInt32
  max : Option UInt32
  deriving DecidableEq

/-- Why a keyword or shape is not accepted. -/
inductive UnsupportedReason where
  | unsupportedKeyword | unionType | openAdditionalProperties | additionalPropertiesSchema | recursiveReference
  | nonRegularRef | invalidPattern | numericRangeUnsupported | setDistinctness | exactlyOne | complement
  | conditionalApplicator | deferredObligation | annotationDependent | dynamicScope | nonScalarLiteral
  | lengthWithPattern | formatUnsupported | formatWithPattern | nonIntegerNumericLiteral
  | allOfIntersectionUnsupported | numberBoundUnsupported | openArrayTail | structuredBackendRequired
  | regexAssertionUnsupported | regexBackreferenceUnsupported
  deriving DecidableEq

/-- A bound on a decimal: its digits, its scale, and whether the bound itself is left out. -/
abbrev DecimalBound := I128 × UInt32 × Bool

inductive Node where
  | null
  | boolean
  | never
  | stringConst (value : StrRef)
  | stringPattern (regex : StrRef) (minLen maxLen : Option UInt32) (charset : Charset)
  | integer (minimum maximum : Option Int64) (multipleOf : Option UInt64)
  | number (integerOnly : Bool) (minimum maximum : Option DecimalBound) (multipleOf : Option (UInt64 × UInt32))
  | lexicalNumber (regex : StrRef)
  | enum (values : LitSlice)
  | array (items : ItemsPolicy NodeId) (minItems : UInt32) (maxItems : Option UInt32) (uniqueItems : Bool)
      (contains : Option (ContainsConstraint NodeId)) (itemsAnnotates : Bool)
  | tuple (prefixes : RefSlice) (tail : Option NodeId) (minItems : UInt32) (maxItems : Option UInt32)
      (uniqueItems tailAnnotates : Bool) (contains : Option (ContainsConstraint NodeId))
  | object (fields : PropSlice) (required : BitSlice) (closure : ObjectClosure) (dependent : PropSlice)
      (dependentRequired : DependentRequiredSlice)
  | openObject (known : PropSlice) (knownRequired : BitSlice) (patterns : PropSlice)
      (additional : AdditionalPolicy NodeId)
      (propertyNames : Option NodeId) (minProperties maxProperties : Option UInt32) (dependent : PropSlice)
      (dependentRequired : DependentRequiredSlice)
  | union (branches : RefSlice)
  | intersection (branches : RefSlice)
  | exactlyOne (branches : RefSlice)
  | not (inner : NodeId)
  | ref (slot : UInt32)
  | dynamicRef (initialTarget : NodeId) (anchor : AnchorId)
  | unevaluated (kind : UnevaluatedKind) (scope unevaluated : NodeId)
  | unsupported (keyword : StrRef) (reason : UnsupportedReason)
  deriving DecidableEq

structure Span where
  start : UInt32
  stop : UInt32
  deriving DecidableEq

structure Diagnostic where
  node : NodeId
  keyword : StrRef
  jsonPointer : StrRef
  sourceSpan : Option Span
  reason : UnsupportedReason
  deriving DecidableEq

structure DependentRequiredPair where
  trigger : StrRef
  required : StrRef
  deriving DecidableEq

/-! ### The arena -/

structure SchemaIRWire where
  irVersion : UInt16
  root : NodeId
  nodes : List Node
  strings : List Byte
  literals : List ScalarLit
  props : List (StrRef × NodeId)
  dependentRequiredPairs : List DependentRequiredPair
  requiredBits : List UInt64
  nodeRefs : List NodeId
  defTargets : List NodeId
  retrievalUri : Option StrRef
  resources : List ResourceRecord
  anchors : List AnchorRecord
  nodeResources : List ResourceId
  options : CompileOptions
  diagnostics : List Diagnostic
  deriving DecidableEq

/-- The elements of a run, if all of it is in range. -/
def runAt {α : Type} (blob : List α) (r : SliceRef) : Option (List α) :=
  if r.off.toNat + r.len.toNat ≤ blob.length then some ((blob.drop r.off.toNat).take r.len.toNat) else none

theorem runAt_some {α : Type} {blob run : List α} {r : SliceRef} (h : runAt blob r = some run) :
    r.off.toNat + r.len.toNat ≤ blob.length ∧ run = (blob.drop r.off.toNat).take r.len.toNat := by
  unfold runAt at h
  split at h
  · rename_i hle
    cases h
    exact ⟨hle, rfl⟩
  · cases h

theorem length_runAt {α : Type} {blob run : List α} {r : SliceRef} (h : runAt blob r = some run) :
    run.length = r.len.toNat := by
  obtain ⟨hle, rfl⟩ := runAt_some h
  rw [List.length_take, List.length_drop]
  omega

namespace SchemaIRWire

variable (w : SchemaIRWire)

def node (id : NodeId) : Option Node := w.nodes[id.toNat]?

def strAt (r : StrRef) : Option Str := (runAt w.strings r).bind Str.ofBytes

def litsAt (r : LitSlice) : Option (List ScalarLit) := runAt w.literals r

def propsAt (r : PropSlice) : Option (List (StrRef × NodeId)) := runAt w.props r

def dependentRequiredAt (r : DependentRequiredSlice) : Option (List DependentRequiredPair) :=
  runAt w.dependentRequiredPairs r

def defTarget (slot : UInt32) : Option NodeId := w.defTargets[slot.toNat]?

def refsAt (r : RefSlice) : Option (List NodeId) := runAt w.nodeRefs r

def nodeResource (node : NodeId) : Option ResourceId := w.nodeResources[node.toNat]?

/-- Whether field `idx` of a required set is set. -/
def isRequired (r : BitSlice) (idx : Nat) : Bool :=
  if r.len.toNat ≤ idx then false
  else (w.requiredBits[r.off.toNat + idx / 64]?).any fun word => (word.toNat >>> (idx % 64)) % 2 == 1

end SchemaIRWire

/-- Total bytes of owned variable-length literal content. -/
def literalStrBytes (lits : List ScalarLit) : Nat :=
  (lits.map fun l => match l with
    | .str s | .json s => s.bytes.length
    | _ => 0).sum

end Ir

end MaskForge
