import MaskForge.Lib.Attempt
import MaskForge.Ir.Wire
/-!
# Builder — the hash-consing arena builder

Every entry point interns what it is given into the side blobs and, last, a node; each blob has a cap.  A failed call
leaves what it interned so far, and calls may go on after it.  Whatever the calls were, a finished arena is within the
caps of the envelope.
-/
namespace MaskForge
namespace Ir

/-- A side blob with the table of the runs interned into it. -/
structure Interned (α : Type) where
  blob : List α
  table : List α → Option SliceRef

namespace Interned

variable {α : Type} [DecidableEq α]

def empty : Interned α := ⟨[], fun _ => none⟩

def toU32 (n : Nat) : Option UInt32 := if n < u32Size then some (UInt32.ofNat n) else none

/-- The blob with one more run. -/
def extend (b : Interned α) (items : List α) (r : SliceRef) : Interned α :=
  ⟨b.blob ++ items, fun key => if key = items then some r else b.table key⟩

/-- The run of `items`, interned now if it was not before. -/
def intern (b : Interned α) (cap : Nat) (full offset length : String) (items : List α) :
    Except CompileError (SliceRef × Interned α) :=
  match b.table items with
  | some r => .ok (r, b)
  | none => do
    check (decide (b.blob.length + items.length ≤ cap)) (limit full)
    let off ← fetch (toU32 b.blob.length) (limit offset)
    let len ← fetch (toU32 items.length) (limit length)
    .ok (⟨off, len⟩, b.extend items ⟨off, len⟩)

end Interned

structure Builder where
  nodes : List Node
  strings : Interned Byte
  literals : Interned ScalarLit
  props : Interned (StrRef × NodeId)
  dependentRequiredPairs : Interned DependentRequiredPair
  requiredBits : Interned UInt64
  nodeRefs : Interned NodeId
  defTargets : List (Option NodeId)
  diagnostics : List Diagnostic
  literalStrBytes : Nat
  nodeIntern : ResourceId × Node → Option NodeId
  nodeResources : List ResourceId
  currentResource : ResourceId
  options : CompileOptions

/-- A builder call: its result and the builder after it. -/
abbrev Build (α : Type) : Type := Attempt Builder CompileError α

/-- What one resource of a document is finished with. -/
structure ResourceInput where
  canonicalUri : Option Str
  root : NodeId
  staticAnchors : List (Str × NodeId)
  dynamicAnchors : List (Str × NodeId)

namespace Builder

def new (options : CompileOptions) : Builder where
  nodes := []
  strings := .empty
  literals := .empty
  props := .empty
  dependentRequiredPairs := .empty
  requiredBits := .empty
  nodeRefs := .empty
  defTargets := []
  diagnostics := []
  literalStrBytes := 0
  nodeIntern := fun _ => none
  nodeResources := []
  currentResource := 0
  options := options

/-! ### Side blobs -/

/-- One of the builder's blobs, and how it is put back. -/
def internIn {α : Type} [DecidableEq α] (blob : Builder → Interned α) (put : Builder → Interned α → Builder) (cap : Nat)
    (full offset length : String) (items : List α) : Build SliceRef :=
  .step fun s => do
    let (r, b) ← (blob s).intern cap full offset length items
    .ok (r, put s b)

def internStr (s : Str) : Build StrRef :=
  internIn Builder.strings (fun b strings => { b with strings := strings }) maxStringsBytes "strings blob cap"
    "strings blob" "string length" s.bytes

def internProps (pairs : List (StrRef × NodeId)) : Build PropSlice :=
  internIn Builder.props (fun b props => { b with props := props }) maxProps "props cap" "props blob" "prop run" pairs

def internRefs (refs : List NodeId) : Build RefSlice :=
  internIn Builder.nodeRefs (fun b nodeRefs => { b with nodeRefs := nodeRefs }) maxNodeRefs "node refs cap"
    "node refs blob" "node ref run" refs

def internPairs (refs : List DependentRequiredPair) : Build DependentRequiredSlice :=
  internIn Builder.dependentRequiredPairs (fun b pairs => { b with dependentRequiredPairs := pairs })
    maxDependentRequiredPairs "dependentRequired pair arena" "dependentRequired pair arena"
      "dependentRequired pair run" refs

/-- The aggregate of the literals' bytes has a cap of its own. -/
def internLits (lits : List ScalarLit) : Build LitSlice :=
  .step fun s =>
    match s.literals.table lits with
    | some r => .ok (r, s)
    | none => do
      check (decide (s.literals.blob.length + lits.length ≤ maxLiterals)) (limit "literals cap")
      check (decide (s.literalStrBytes + Ir.literalStrBytes lits ≤ maxLiteralStrBytes))
        (limit "literal string bytes cap")
      let off ← fetch (Interned.toU32 s.literals.blob.length) (limit "literals blob")
      let len ← fetch (Interned.toU32 lits.length) (limit "literal run")
      .ok (⟨off, len⟩, { s with
        literals := s.literals.extend lits ⟨off, len⟩
        literalStrBytes := s.literalStrBytes + Ir.literalStrBytes lits })

/-- The words are shared; the run carries the field count of this use. -/
def internBits (words : List UInt64) (fieldCount : UInt32) : Build BitSlice :=
  .step fun s =>
    match s.requiredBits.table words with
    | some r => .ok (⟨r.off, fieldCount⟩, s)
    | none => do
      check (decide (s.requiredBits.blob.length + words.length ≤ maxRequiredWords)) (limit "required words cap")
      let off ← fetch (Interned.toU32 s.requiredBits.blob.length) (limit "required blob")
      .ok (⟨off, fieldCount⟩, { s with requiredBits := s.requiredBits.extend words ⟨off, fieldCount⟩ })

def internNode (node : Node) : Build NodeId :=
  .step fun s =>
    match s.nodeIntern (s.currentResource, node) with
    | some id => .ok (id, s)
    | none => do
      check (decide (s.nodes.length < maxNodes)) (limit "node cap")
      let id ← fetch (Interned.toU32 s.nodes.length) (limit "node count")
      .ok (id, { s with
        nodes := s.nodes ++ [node]
        nodeResources := s.nodeResources ++ [s.currentResource]
        nodeIntern := fun key => if key = (s.currentResource, node) then some id else s.nodeIntern key })

def setCurrentResource (resource : ResourceId) : Build ResourceId :=
  .step fun s => .ok (s.currentResource, { s with currentResource := resource })

def require (c : Bool) (err : CompileError) : Build Unit := .lift (check c err)

/-! ### Names and fields -/

/-- Each name interned in turn, with what it carries. -/
def internNames (fields : List (Str × NodeId)) : Build (List (StrRef × NodeId)) :=
  .collect (fun (name, child) => do
    let r ← internStr name
    pure (r, child)) fields

def internDependent (dependent : List (Str × NodeId)) : Build PropSlice := do
  let pairs ← internNames dependent
  internProps pairs

def Str.le (a b : Str) : Bool := !b.lt a

/-- Trigger by trigger and name by name in byte order. -/
def internDependentRequired (groups : List (Str × List Str)) : Build DependentRequiredSlice := do
  require (decide ((groups.map fun g => g.2.length).sum ≤ maxDependentRequiredPairs))
    (limit "dependentRequired pair count")
  let groups := groups.mergeSort fun a b => Str.le a.1 b.1
  require (neighbours (fun a b => a.1 != b.1) groups) (malformed "duplicate dependentRequired trigger")
  let groups := groups.map fun g => (g.1, g.2.mergeSort Str.le)
  require (groups.all fun g => neighbours (fun a b => a != b) g.2) (malformed "duplicate dependentRequired pair")
  let refs ← Attempt.collect (fun (trigger, required) => do
    let triggerRef ← internStr trigger
    Attempt.collect (fun name => do
      let nameRef ← internStr name
      pure (DependentRequiredPair.mk triggerRef nameRef)) required) groups
  internPairs refs.flatten

/-- The bit of field `i` is bit `i % 64` of word `i / 64`. -/
def requiredWords (required : List Bool) : List UInt64 :=
  (List.range ((required.length + 63) / 64)).map fun word =>
    ((required.drop (64 * word)).take 64).zipIdx.foldl
      (fun acc p => if p.1 then acc ||| (1 <<< UInt64.ofNat p.2) else acc) 0

def internNamedFields (fields : List (Str × NodeId)) (required : List Bool) : Build (PropSlice × BitSlice) := do
  require (required.length == fields.length) (malformed "required flags do not align with fields")
  require (decide (fields.map Prod.fst).Nodup) (malformed "duplicate object key")
  let pairs ← internNames fields
  let fieldCount ← Attempt.lift (fetch (Interned.toU32 fields.length) (limit "object field count"))
  let props ← internProps pairs
  let bits ← internBits (requiredWords required) fieldCount
  pure (props, bits)

/-! ### Nodes -/

def null : Build NodeId := internNode .null

def boolean : Build NodeId := internNode .boolean

def never : Build NodeId := internNode .never

def stringConst (value : Str) : Build NodeId := do
  let value ← internStr value
  internNode (.stringConst value)

def stringPattern (regex : Str) (minLen maxLen : Option UInt32) (charset : Charset) : Build NodeId := do
  let regex ← internStr regex
  internNode (.stringPattern regex minLen maxLen charset)

def integerMultipleOf (minimum maximum : Option Int64) (multipleOf : Option UInt64) : Build NodeId := do
  require (multipleOf != some 0) (malformed "multipleOf must be a positive integer")
  internNode (.integer minimum maximum multipleOf)

def integer (minimum maximum : Option Int64) : Build NodeId := integerMultipleOf minimum maximum none

def numberRange (minimum maximum : Option DecimalBound) (multipleOf : Option (UInt64 × UInt32)) : Build NodeId :=
  internNode (.number false minimum maximum multipleOf)

def number : Build NodeId := numberRange none none none

def integerNumberRange (minimum maximum : Option DecimalBound) (multipleOf : Option (UInt64 × UInt32)) : Build NodeId :=
  internNode (.number true minimum maximum multipleOf)

def lexicalNumber (env : Externals) (regex : Str) : Build NodeId := do
  Attempt.lift (validatePattern env regex)
  let regex ← internStr regex
  internNode (.lexicalNumber regex)

def enumValues (values : List ScalarLit) : Build NodeId := do
  require (!values.isEmpty) (malformed "an enum must have at least one value")
  let values := values.mergeSort fun a b => !b.lt a
  require (neighbours (fun a b => a != b) values) (malformed "duplicate enum value")
  let values ← internLits values
  internNode (.enum values)

def arrayFull (items : ItemsPolicy NodeId) (minItems : UInt32) (maxItems : Option UInt32) (uniqueItems : Bool)
    (contains : Option (ContainsConstraint NodeId)) (itemsAnnotates : Bool) : Build NodeId :=
  internNode (.array items minItems maxItems uniqueItems contains itemsAnnotates)

def arrayOpen (minItems : UInt32) (maxItems : Option UInt32) (uniqueItems : Bool) : Build NodeId :=
  arrayFull .allowAny minItems maxItems uniqueItems none true

def arrayUnique (items : NodeId) (minItems : UInt32) (maxItems : Option UInt32) (uniqueItems : Bool) : Build NodeId :=
  arrayFull (.schema items) minItems maxItems uniqueItems none true

def array (items : NodeId) (minItems : UInt32) (maxItems : Option UInt32) : Build NodeId :=
  arrayUnique items minItems maxItems false

def tupleFull (prefixes : List NodeId) (tail : Option NodeId) (minItems : UInt32) (maxItems : Option UInt32)
    (uniqueItems : Bool) (contains : Option (ContainsConstraint NodeId)) (tailAnnotates : Bool) : Build NodeId := do
  require (!prefixes.isEmpty) (malformed "a tuple must have at least one prefix position")
  let prefixes ← internRefs prefixes
  internNode (.tuple prefixes tail minItems maxItems uniqueItems tailAnnotates contains)

def tupleUnique (prefixes : List NodeId) (tail : Option NodeId) (minItems : UInt32) (maxItems : Option UInt32)
    (uniqueItems : Bool) : Build NodeId :=
  tupleFull prefixes tail minItems maxItems uniqueItems none true

def tuple (prefixes : List NodeId) (tail : Option NodeId) (minItems : UInt32) (maxItems : Option UInt32) :
    Build NodeId :=
  tupleUnique prefixes tail minItems maxItems false

/-- A node over branches; a single branch is that branch. -/
def combine (empty : String) (node : RefSlice → Node) : List NodeId → Build NodeId
  | [] => .lift (.error (malformed empty))
  | [branch] => pure branch
  | branches => do
    let refs ← internRefs branches
    internNode (node refs)

def unionOf : List NodeId → Build NodeId := combine "a type union must have at least one branch" .union

def intersectionOf : List NodeId → Build NodeId := combine "an intersection must have at least one branch" .intersection

def exactlyOneOf : List NodeId → Build NodeId := combine "an exactly-one must have at least one branch" .exactlyOne

def allocDefSlot : Build UInt32 :=
  .step fun s => do
    let slot ← fetch (Interned.toU32 s.defTargets.length) (limit "def slot count")
    check (decide (s.defTargets.length < maxNodes)) (limit "def slot cap")
    .ok (slot, { s with defTargets := s.defTargets ++ [none] })

/-- A slot that was already assigned is overwritten before the call fails. -/
def setDefTarget (slot : UInt32) (body : NodeId) : Build Unit := do
  let s ← Attempt.get
  let entry ← Attempt.lift (fetch s.defTargets[slot.toNat]? (malformed "def slot index out of range"))
  Attempt.modify fun b => { b with defTargets := b.defTargets.set slot.toNat (some body) }
  require entry.isNone (malformed "def slot already assigned")

def refNode (slot : UInt32) : Build NodeId := internNode (.ref slot)

def dynamicRef (initialTarget : NodeId) (anchor : AnchorId) : Build NodeId :=
  internNode (.dynamicRef initialTarget anchor)

def unevaluated (kind : UnevaluatedKind) (scope unevaluated : NodeId) : Build NodeId :=
  internNode (.unevaluated kind scope unevaluated)

def not (inner : NodeId) : Build NodeId := internNode (.not inner)

def objectFull (fields : List (Str × NodeId)) (required : List Bool) (closure : ObjectClosure)
    (dependent : List (Str × NodeId)) (dependentRequired : List (Str × List Str)) : Build NodeId := do
  let (fields, required) ← internNamedFields fields required
  let dependent ← internDependent dependent
  let dependentRequired ← internDependentRequired dependentRequired
  internNode (.object fields required closure dependent dependentRequired)

def object (fields : List (Str × NodeId)) (required : List Bool) (closure : ObjectClosure) : Build NodeId :=
  objectFull fields required closure [] []

def openObjectFull (known : List (Str × NodeId)) (knownRequired : List Bool) (patterns : List (Str × NodeId))
    (additional : AdditionalPolicy NodeId) (propertyNames : Option NodeId) (minProperties maxProperties : Option UInt32)
    (dependent : List (Str × NodeId)) (dependentRequired : List (Str × List Str)) : Build NodeId := do
  require (ordered minProperties maxProperties) (malformed "maxProperties is less than minProperties")
  let (known, knownRequired) ← internNamedFields known knownRequired
  let pairs ← internNames patterns
  let patterns ← internProps pairs
  let dependent ← internDependent dependent
  let dependentRequired ← internDependentRequired dependentRequired
  internNode (.openObject known knownRequired patterns additional propertyNames minProperties maxProperties dependent
    dependentRequired)

def openObject (known : List (Str × NodeId)) (knownRequired : List Bool) (patterns : List (Str × NodeId))
    (additional : AdditionalPolicy NodeId) (propertyNames : Option NodeId)
    (minProperties maxProperties : Option UInt32) :
    Build NodeId :=
  openObjectFull known knownRequired patterns additional propertyNames minProperties maxProperties [] []

/-- The name `unsupported` stands for the node and its diagnostic. -/
def unsupportedNode (keyword : Str) (reason : UnsupportedReason) (jsonPointer : Str) : Build NodeId := do
  let s ← Attempt.get
  require (decide (s.diagnostics.length < maxDiagnosticCount ∧ s.diagnostics.length < s.options.maxDiagnostics.toNat))
    ⟨.tooManyDiagnostics, .l2, "diagnostics buffer is full"⟩
  let keywordRef ← internStr keyword
  let pointerRef ← internStr jsonPointer
  let node ← internNode (.unsupported keywordRef reason)
  Attempt.modify fun b => { b with diagnostics := b.diagnostics ++ [⟨node, keywordRef, pointerRef, none, reason⟩] }
  pure node

/-! ### Finishing -/

/-- The anchors of one run, after those already there. -/
def internAnchors (resource : ResourceId) (anchors : List AnchorRecord) (inputs : List (Str × NodeId)) :
    Build (AnchorSlice × List AnchorRecord) := do
  let off ← Attempt.lift (fetch (Interned.toU32 anchors.length) (limit "anchor offset"))
  let added ← Attempt.collect (fun (name, target) => do
    let name ← internStr name
    pure (AnchorRecord.mk resource name target)) inputs
  let stop ← Attempt.lift (fetch (Interned.toU32 (anchors ++ added).length) (limit "anchor count"))
  let len ← Attempt.lift (fetch (if off ≤ stop then some (stop - off) else none) (limit "anchor run"))
  pure (⟨off, len⟩, anchors ++ added)

def internResource (acc : List ResourceRecord × List AnchorRecord) (input : ResourceInput) :
    Build (List ResourceRecord × List AnchorRecord) := do
  let resource ← Attempt.lift (fetch (Interned.toU32 acc.1.length) (limit "resource index"))
  let canonicalUri ← Attempt.optional internStr input.canonicalUri
  let (staticAnchors, anchors) ← internAnchors resource acc.2 input.staticAnchors
  let (dynamicAnchors, anchors) ← internAnchors resource anchors input.dynamicAnchors
  pure (acc.1 ++ [⟨canonicalUri, input.root, staticAnchors, dynamicAnchors⟩], anchors)

/-- Every slot's target, if all were assigned. -/
def assigned : List (Option NodeId) → Except CompileError (List NodeId)
  | [] => .ok []
  | target :: rest => do
    let target ← fetch target (malformed "def slot never assigned a target")
    let rest ← assigned rest
    .ok (target :: rest)

section
variable (env : Externals)

def finishWithResources (b : Builder) (root : NodeId) (retrievalUri : Option Str) (inputs : List ResourceInput) :
    Except CompileError (SchemaIR env) :=
  let strings : Build (Option StrRef × List ResourceRecord × List AnchorRecord) := do
    let uri ← Attempt.optional internStr retrievalUri
    let acc ← Attempt.loop internResource ([], []) inputs
    pure (uri, acc)
  match strings b with
  | (.error e, _) => .error e
  | (.ok (uri, resources, anchors), s) => do
    let defTargets ← assigned s.defTargets
    assemble env {
      irVersion := irVersion
      root := root
      nodes := s.nodes
      strings := s.strings.blob
      literals := s.literals.blob
      props := s.props.blob
      dependentRequiredPairs := s.dependentRequiredPairs.blob
      requiredBits := s.requiredBits.blob
      nodeRefs := s.nodeRefs.blob
      defTargets := defTargets
      retrievalUri := uri
      resources := resources
      anchors := anchors
      nodeResources := s.nodeResources
      options := s.options
      diagnostics := s.diagnostics }

def finish (b : Builder) (root : NodeId) : Except CompileError (SchemaIR env) :=
  finishWithResources env b root none [⟨none, root, [], []⟩]

end

end Builder

end Ir
end MaskForge
