import MaskForge.Ir.Schema
/-!
# Validate — structural validation of an arena

`validate` runs over an arena that may come from anywhere: the header, the resource table with its anchors, every node,
the definition table and the diagnostics.  What an accepted arena satisfies is read off it by `validate_ok`.
-/
namespace MaskForge
namespace Ir

def malformed (message : String) : CompileError := ⟨.malformed, .l2, message⟩
def limit (what : String) : CompileError := ⟨.internalLimitExceeded, .l2, what⟩
def unsupported (message : String) : CompileError := ⟨.unsupported, .l2, message⟩

/-- Go on if the condition holds. -/
def check (c : Bool) (err : CompileError) : Except CompileError Unit := if c then .ok () else .error err

/-- `ok_or_else`. -/
def fetch {α : Type} (o : Option α) (err : CompileError) : Except CompileError α :=
  match o with
  | some a => .ok a
  | none => .error err

@[simp] theorem check_ok {c : Bool} {err : CompileError} {u : Unit} : check c err = .ok u ↔ c = true := by
  cases c <;> simp [check]

@[simp] theorem fetch_ok {α : Type} {o : Option α} {err : CompileError} {a : α} : fetch o err = .ok a ↔ o = some a := by
  cases o <;> simp [fetch]

@[simp] theorem bind_eq_ok {ε α β : Type} {x : Except ε α} {f : α → Except ε β} {b : β} :
    (x >>= f) = .ok b ↔ ∃ a, x = .ok a ∧ f a = .ok b := by
  constructor
  · exact bind_ok
  · rintro ⟨a, rfl, h⟩
    exact h

/-- A loop over a list that stops at the first error. -/
def each {α : Type} (f : α → Except CompileError Unit) : List α → Except CompileError Unit
  | [] => .ok ()
  | a :: as => do
    f a
    each f as

@[simp] theorem each_ok {α : Type} {f : α → Except CompileError Unit} {u : Unit} :
    ∀ {l : List α}, each f l = .ok u ↔ ∀ a ∈ l, f a = .ok ()
  | [] => by simp [each]
  | a :: l => by
    simp only [each, bind_eq_ok, each_ok (l := l), List.forall_mem_cons]
    exact ⟨fun ⟨_, ha, hl⟩ => ⟨ha, hl⟩, fun ⟨ha, hl⟩ => ⟨(), ha, hl⟩⟩

/-! ### Code outside this module -/

/-- What the regex frontend says of a pattern. -/
inductive PatternAnalysis where
  | ordinary
  | leading
  | unsupported (what : String)
  | malformed (what : String)

/-- A parsed URI: whether it has a fragment, and its normal form. -/
structure Uri where
  fragment : Bool
  normalized : Str

/-- The regex frontend's `analyze_compiled_pattern` and the URI library's parser, which validation consults. -/
structure Externals where
  analyzeCompiledPattern : Str → PatternAnalysis
  parseUri : Str → Option Uri

variable (env : Externals)

/-- `^` or `$` outside a bracket expression; `skip` says the byte before was a backslash. -/
def anchorOutsideBrackets : List Byte → (inBracket skip : Bool) → Bool
  | [], _, _ => false
  | b :: rest, inBracket, skip =>
    if skip then anchorOutsideBrackets rest inBracket false
    else if b = 0x5c then anchorOutsideBrackets rest inBracket true
    else if b = 0x5b ∧ ¬inBracket then anchorOutsideBrackets rest true false
    else if b = 0x5d ∧ inBracket then anchorOutsideBrackets rest false false
    else if (b = 0x5e ∨ b = 0x24) ∧ ¬inBracket then true
    else anchorOutsideBrackets rest inBracket false

def hasAnchorOutsideBrackets (bytes : List Byte) : Bool := anchorOutsideBrackets bytes false false

def validatePatternBody (regex : Str) (allowLeadingAssertions : Bool) : Except CompileError Unit :=
  match env.analyzeCompiledPattern regex with
  | .ordinary => .ok ()
  | .leading => if allowLeadingAssertions then .ok () else .error (unsupported "unsupported regex construct")
  | .unsupported _ => .error (unsupported "unsupported regex construct")
  | .malformed _ => .error (malformed "malformed regex syntax")

def validatePattern (regex : Str) : Except CompileError Unit := do
  check (!hasAnchorOutsideBrackets regex.bytes) (unsupported "explicit anchors are not allowed")
  validatePatternBody env regex false

def validateSearchPattern (regex : Str) : Except CompileError Unit := validatePatternBody env regex true

def validateCanonicalUri (value : Str) : Except CompileError Unit := do
  let uri ← fetch (env.parseUri value) (malformed "canonical resource URI is invalid")
  check (!(uri.fragment || uri.normalized != value))
    (malformed "resource URI is not fragmentless canonical RFC 3986 form")

/-! ### Decimals -/

/-- The digits of a number, most significant first; the fuel is the 39 digits a `u128` can have. -/
def decimalDigits : Nat → Nat → List Nat → List Nat
  | 0, _, acc => acc
  | fuel + 1, v, acc => if v = 0 then acc else decimalDigits fuel (v / 10) (v % 10 :: acc)

/-- The first difference decides; a missing digit is a zero. -/
def compareDigits : List Nat → List Nat → Ordering
  | [], [] => .eq
  | a :: as, [] => (compare a 0).then (compareDigits as [])
  | [], b :: bs => (compare 0 b).then (compareDigits [] bs)
  | a :: as, b :: bs => (compare a b).then (compareDigits as bs)

/-- `decimal_cmp` on `coefficient * 10^-scale`. -/
def decimalCmp (a b : I128 × UInt32) : Ordering :=
  if a.1.toInt = 0 ∨ b.1.toInt = 0 ∨ decide (a.1.toInt < 0) ≠ decide (b.1.toInt < 0) then
    compare a.1.toInt.sign b.1.toInt.sign
  else
    let da := decimalDigits 39 a.1.toInt.natAbs []
    let db := decimalDigits 39 b.1.toInt.natAbs []
    let ea : Int := da.length - a.2.toNat
    let eb : Int := db.length - b.2.toNat
    let magnitude := (compare ea eb).then (compareDigits da db)
    if a.1.toInt < 0 then magnitude.swap else magnitude

/-! ### Nodes -/

/-- `ScalarLit`'s derived order: by variant, then by content. -/
def ScalarLit.lt : ScalarLit → ScalarLit → Bool
  | .null, .null => false
  | .null, _ => true
  | .bool a, .bool b => !a && b
  | .bool _, .null => false
  | .bool _, _ => true
  | .int a, .int b => decide (a < b)
  | .int _, .str _ | .int _, .json _ => true
  | .int _, _ => false
  | .str a, .str b => a.lt b
  | .str _, .json _ => true
  | .str _, _ => false
  | .json a, .json b => a.lt b
  | .json _, _ => false

/-- Every two neighbours of a list satisfy a test: `windows(2)`. -/
def neighbours {α : Type} (test : α → α → Bool) : List α → Bool
  | a :: b :: rest => test a b && neighbours test (b :: rest)
  | _ => true

/-- An upper bound is not below its lower bound, where both are given. -/
def ordered {α : Type} [LT α] [DecidableLT α] : Option α → Option α → Bool
  | some lo, some hi => !decide (hi < lo)
  | _, _ => true

variable (w : SchemaIRWire)

/-- Distinct names, each with a child that is a back-edge. -/
def validateProps (childOk : NodeId → Bool) (range dup edge : String) :
    List (StrRef × NodeId) → List Str → Except CompileError Unit
  | [], _ => .ok ()
  | (name, child) :: rest, seen => do
    let key ← fetch (w.strAt name) (malformed range)
    check (!decide (key ∈ seen)) (malformed dup)
    check (childOk child) (malformed edge)
    validateProps childOk range dup edge rest (key :: seen)

def validateRequired (required : BitSlice) (fieldCount : Nat) : Except CompileError Unit := do
  check (required.len.toNat == fieldCount) (malformed "required bitset width does not match field count")
  let words := (fieldCount + 63) / 64
  check (decide (required.off.toNat + words ≤ w.requiredBits.length)) (malformed "required bitset out of range")
  let slice := (w.requiredBits.drop required.off.toNat).take words
  if fieldCount % 64 = 0 then .ok ()
  else
    check (slice.getLast?.all fun last => last.toNat >>> (fieldCount % 64) == 0)
      (malformed "required bitset has non-zero padding bits")

def validateDependentProps (dependent : PropSlice) (childOk : NodeId → Bool) : Except CompileError Unit := do
  let props ← fetch (w.propsAt dependent) (malformed "dependentSchemas prop run out of range")
  validateProps w childOk "dependentSchemas key out of range" "duplicate dependentSchemas key"
    "dependentSchemas value is not a back-edge" props []

def validatePairs : List DependentRequiredPair → List (Str × Str) → Except CompileError Unit
  | [], _ => .ok ()
  | pair :: rest, seen => do
    let trigger ← fetch (w.strAt pair.trigger) (malformed "dependentRequired trigger out of range")
    let required ← fetch (w.strAt pair.required) (malformed "dependentRequired required name out of range")
    check (!decide ((trigger, required) ∈ seen)) (malformed "duplicate dependentRequired pair")
    validatePairs rest ((trigger, required) :: seen)

def validateDependentRequired (dependent : DependentRequiredSlice) : Except CompileError Unit := do
  let pairs ← fetch (w.dependentRequiredAt dependent) (malformed "dependentRequired pair run out of range")
  check (decide (pairs.length ≤ maxDependentRequiredPairs)) (malformed "dependentRequired pair count exceeds cap")
  validatePairs w pairs []

/-- A non-empty run of branches, all of them back-edges. -/
def validateBranches (childOk : NodeId → Bool) (range empty edge : String) (branches : RefSlice) :
    Except CompileError Unit := do
  let ids ← fetch (w.refsAt branches) (malformed range)
  check (!ids.isEmpty) (malformed empty)
  each (fun id => check (childOk id) (malformed edge)) ids

def validatePatterns (childOk : NodeId → Bool) : List (StrRef × NodeId) → Except CompileError Unit :=
  each fun (regex, child) => do
    let re ← fetch (w.strAt regex) (malformed "open object pattern regex out of range")
    validateSearchPattern env re
    check (childOk child) (malformed "open object pattern value is not a back-edge")

/-- The anchor of a dynamic reference is a dynamic one, and the reference starts at its target. -/
def validateDynamicRef (initialTarget : NodeId) (anchor : AnchorId) : Except CompileError Unit := do
  check (decide (initialTarget.toNat < w.nodes.length)) (malformed "dynamic reference target is out of range")
  let record ← fetch w.anchors[anchor.toNat]? (malformed "dynamic reference anchor is out of range")
  let resource ← fetch w.resources[record.resource.toNat]?
    (malformed "dynamic reference anchor resource is out of range")
  let start := resource.dynamicAnchors.off.toNat
  check (decide (start ≤ anchor.toNat ∧ anchor.toNat < start + resource.dynamicAnchors.len.toNat))
    (malformed "dynamic reference names an anchor that is not dynamic")
  let viaRef := match w.node initialTarget with
    | some (.ref slot) => w.defTarget slot == some record.target
    | _ => false
  check (record.target == initialTarget || viaRef)
    (malformed "dynamic reference target disagrees with its initial anchor")

def validateNode (parent : Nat) (node : Node) : Except CompileError Unit :=
  let childOk := fun (c : NodeId) => decide (c.toNat < parent)
  match node with
  | .null | .boolean | .never => .ok ()
  | .stringConst value => do
    let _ ← fetch (w.strAt value) (malformed "string const reference out of range")
    .ok ()
  | .stringPattern regex minLen maxLen charset => do
    let re ← fetch (w.strAt regex) (malformed "pattern reference out of range")
    if charset = .utf8Any ∧ re.bytes ≠ jsonStringBody then validateSearchPattern env re else validatePattern env re
    check (ordered minLen maxLen) (malformed "string maxLength is less than minLength")
  | .integer minimum maximum multipleOf => do
    check (ordered minimum maximum) (malformed "integer maximum is less than minimum")
    check (multipleOf != some 0) (malformed "multipleOf must be a positive integer")
  | .number _ minimum maximum multipleOf => do
    check (match minimum, maximum with
      | some (lo, ls, loExcl), some (hi, hs, hiExcl) =>
        match decimalCmp (lo, ls) (hi, hs) with
        | .gt => false
        | .eq => !(loExcl || hiExcl)
        | .lt => true
      | _, _ => true) (malformed "number maximum is not above minimum")
    check (multipleOf.all fun m => m.1 != 0) (malformed "multipleOf must be positive")
  | .lexicalNumber regex => do
    let re ← fetch (w.strAt regex) (malformed "lexical number pattern out of range")
    validatePattern env re
  | .enum values => do
    let lits ← fetch (w.litsAt values) (malformed "enum literal run out of range")
    check (!lits.isEmpty) (malformed "an enum must have at least one value")
    check (neighbours ScalarLit.lt lits) (malformed "enum values must be canonically sorted and unique")
  | .array items minItems maxItems _ _ _ => do
    -- the remaining fields, `contains` among them, are not looked at
    check (match items with
      | .schema id => childOk id
      | .allowAny => true) (malformed "array item is not a back-edge")
    check (ordered (some minItems) maxItems) (malformed "array maxItems is less than minItems")
  | .tuple prefixes tail minItems maxItems _ _ _ => do
    let ids ← fetch (w.refsAt prefixes) (malformed "tuple prefix run out of range")
    check (!ids.isEmpty) (malformed "a tuple must have at least one prefix position")
    each (fun id => check (childOk id) (malformed "tuple prefix element is not a back-edge")) ids
    check (tail.all childOk) (malformed "tuple tail is not a back-edge")
    check (ordered (some minItems) maxItems) (malformed "tuple maxItems is less than minItems")
    check (!(tail.isNone && decide (prefixes.len < minItems)))
      (malformed "closed tuple minItems exceeds the prefix length")
  | .object fields required _ dependent dependentRequired => do
    let props ← fetch (w.propsAt fields) (malformed "object field run out of range")
    validateProps w childOk "object field name out of range" "duplicate object key"
      "object field value is not a back-edge" props []
    validateRequired w required props.length
    validateDependentProps w dependent childOk
    validateDependentRequired w dependentRequired
  | .openObject known knownRequired patterns additional propertyNames minProperties maxProperties dependent
      dependentRequired => do
    let knownProps ← fetch (w.propsAt known) (malformed "open object known props out of range")
    validateProps w childOk "open object field name out of range" "duplicate object key"
      "open object field value is not a back-edge" knownProps []
    validateRequired w knownRequired knownProps.length
    let patternProps ← fetch (w.propsAt patterns) (malformed "open object pattern props out of range")
    validatePatterns env w childOk patternProps
    check (match additional with
      | .schema id => childOk id
      | _ => true) (malformed "open object additional schema is not a back-edge")
    check (propertyNames.all childOk) (malformed "open object propertyNames schema is not a back-edge")
    check (ordered minProperties maxProperties) (malformed "open object maxProperties is less than minProperties")
    validateDependentProps w dependent childOk
    validateDependentRequired w dependentRequired
  | .union branches => validateBranches w childOk "union branch run out of range"
      "a type union must have at least one branch" "union branch is not a back-edge" branches
  | .intersection branches => validateBranches w childOk "intersection branch run out of range"
      "an intersection must have at least one branch" "intersection branch is not a back-edge" branches
  | .exactlyOne branches => validateBranches w childOk "exactly-one branch run out of range"
      "an exactly-one must have at least one branch" "exactly-one branch is not a back-edge" branches
  | .not inner => check (childOk inner) (malformed "not target is not a back-edge")
  | .ref slot => check (decide (slot.toNat < w.defTargets.length)) (malformed "ref names a def slot out of range")
  | .dynamicRef initialTarget anchor => validateDynamicRef w initialTarget anchor
  | .unevaluated _ scope unevaluated =>
    check (childOk scope && childOk unevaluated) (malformed "unevaluated child is not a back-edge")
  | .unsupported keyword _ => do
    let _ ← fetch (w.strAt keyword) (malformed "unsupported keyword reference out of range")
    .ok ()

/-- The nodes from index `i` on. -/
def validateNodes : Nat → List Node → Except CompileError Unit
  | _, [] => .ok ()
  | i, node :: rest => do
    check (decide (i < u32Size)) (limit "node index")
    validateNode env w i node
    validateNodes (i + 1) rest

/-! ### Resources -/

/-- The records of one run: owned by the resource, in range, with rising names. -/
def validateAnchors (resource : Nat) : List AnchorRecord → Option Str → Except CompileError Unit
  | [], _ => .ok ()
  | anchor :: rest, previous => do
    check (anchor.resource.toNat == resource) (malformed "anchor run contains another resource")
    check (decide (anchor.target.toNat < w.nodes.length) && w.nodeResource anchor.target == some
      (UInt32.ofNat resource))
      (malformed "anchor target or resource is invalid")
    let name ← fetch (w.strAt anchor.name) (malformed "anchor name string run is invalid")
    check (previous.all fun p => p.lt name) (malformed "anchor names are duplicate or not canonical")
    validateAnchors resource rest (some name)

def validateAnchorRun (run : AnchorSlice) (resource : Nat) : Except CompileError (List AnchorRecord) := do
  let anchors ← fetch (runAt w.anchors run) (malformed "anchor run is out of range")
  validateAnchors w resource anchors none
  .ok anchors

/-- No name twice in one resource. -/
def insertNames : List AnchorRecord → List Str → Except CompileError (List Str)
  | [], names => .ok names
  | anchor :: rest, names => do
    let name ← fetch (w.strAt anchor.name) (malformed "anchor name string run is invalid")
    check (!decide (name ∈ names)) (malformed "static and dynamic anchors collide inside one resource")
    insertNames rest (name :: names)

/-- One of a resource's two runs: it starts where the last one ended. -/
def validateRun (resource : Nat) (run : AnchorSlice) (cursor : Nat) (names : List Str) :
    Except CompileError (Nat × List Str) := do
  check (run.off.toNat == cursor) (malformed "anchor runs are not in canonical order")
  let anchors ← validateAnchorRun w run resource
  let names ← insertNames w anchors names
  .ok (cursor + anchors.length, names)

/-- What the loop over the resources carries. -/
structure ResourceScan where
  previousUri : Option Str
  anonymousSeen : Bool
  anchorCursor : Nat

def validateUri (scan : ResourceScan) : Option StrRef → Except CompileError ResourceScan
  | none => do
    check (!(scan.anonymousSeen || scan.previousUri.isSome)) (malformed "anonymous resource ordering is not canonical")
    .ok { scan with anonymousSeen := true }
  | some r => do
    let uri ← fetch (w.strAt r) (malformed "resource URI string run is invalid")
    validateCanonicalUri env uri
    check (scan.previousUri.all fun p => p.lt uri) (malformed "resource URIs are duplicate or not canonical")
    .ok { scan with previousUri := some uri }

def validateResource (index : Nat) (resource : ResourceRecord) (scan : ResourceScan) :
    Except CompileError ResourceScan := do
  check (decide (resource.root.toNat < w.nodes.length)) (malformed "resource root is out of range")
  check (decide (index < u32Size)) (limit "resource index")
  check (w.nodeResource resource.root == some (UInt32.ofNat index))
    (malformed "resource root has an inconsistent owner")
  let scan ← validateUri env w scan resource.canonicalUri
  let (cursor, names) ← validateRun w index resource.staticAnchors scan.anchorCursor []
  let (cursor, _) ← validateRun w index resource.dynamicAnchors cursor names
  .ok { scan with anchorCursor := cursor }

def validateResourceList : Nat → List ResourceRecord → ResourceScan → Except CompileError ResourceScan
  | _, [], scan => .ok scan
  | index, resource :: rest, scan => do
    let scan ← validateResource env w index resource scan
    validateResourceList (index + 1) rest scan

def validateRetrievalUri : Option StrRef → Except CompileError Unit
  | none => .ok ()
  | some r => do
    let uri ← fetch (w.strAt r) (malformed "retrieval URI string run is invalid")
    validateCanonicalUri env uri

def validateResources : Except CompileError Unit := do
  check (!w.resources.isEmpty && decide (w.resources.length ≤ maxResources))
    (malformed "resource table is empty or exceeds its cap")
  check (decide (w.anchors.length ≤ maxAnchors)) (malformed "anchor table exceeds its cap")
  check (w.nodeResources.length == w.nodes.length) (malformed "node-to-resource table length mismatch")
  validateRetrievalUri env w w.retrievalUri
  each (fun resource => check (decide (resource.toNat < w.resources.length))
    (malformed "node is assigned to an invalid resource")) w.nodeResources
  let scan ← validateResourceList env w 0 w.resources ⟨none, false, 0⟩
  check (scan.anchorCursor == w.anchors.length) (malformed "anchor table has unclaimed records")

/-! ### Diagnostics -/

def validateDiagnostic (d : Diagnostic) : Except CompileError Unit := do
  let node ← fetch (w.node d.node) (malformed "diagnostic references a node out of range")
  match node with
  | .unsupported keyword reason => do
    check (keyword == d.keyword) (malformed "diagnostic keyword disagrees with its node")
    check (reason == d.reason) (malformed "diagnostic reason disagrees with its node")
    check ((w.strAt d.keyword).isSome && (w.strAt d.jsonPointer).isSome)
      (malformed "diagnostic string reference out of range")
    check (d.sourceSpan.all fun span => !decide (span.stop < span.start))
      (malformed "diagnostic span start is past its end")
  | _ => .error (malformed "a diagnostic must point at an Unsupported node")

def validateDiagnostics : Except CompileError Unit := do
  check (decide (w.diagnostics.length ≤ w.options.maxDiagnostics.toNat))
    ⟨.tooManyDiagnostics, .l2, "more diagnostics than the configured cap"⟩
  each (validateDiagnostic w) w.diagnostics

/-! ### The arena -/

def validate : Except CompileError Unit := do
  check (w.irVersion == irVersion) ⟨.artifactMismatch, .l2, "ir_version does not match"⟩
  check (w.options.maxDiagnostics != 0) (malformed "max_diagnostics must be at least one")
  check (decide (w.root.toNat < w.nodes.length)) (malformed "root node id out of range")
  check (decide (literalStrBytes w.literals ≤ maxLiteralStrBytes)) (limit "literal string bytes")
  check (decide (w.dependentRequiredPairs.length ≤ maxDependentRequiredPairs))
    (malformed "dependentRequired pair count exceeds cap")
  validateResources env w
  validateNodes env w 0 w.nodes
  each (fun target => check (decide (target.toNat < w.nodes.length)) (malformed "def target node id out of range"))
    w.defTargets
  validateDiagnostics w

/-- A frozen arena: it passed validation. -/
structure SchemaIR where
  wire : SchemaIRWire
  valid : validate env wire = .ok ()

/-- The single construction choke point. -/
def assemble : Except CompileError (SchemaIR env) :=
  match h : validate env w with
  | .ok () => .ok ⟨w, h⟩
  | .error e => .error e

theorem assemble_ok {ir : SchemaIR env} (h : assemble env w = .ok ir) : ir.wire = w := by
  unfold assemble at h
  split at h
  · cases h
    rfl
  · cases h

theorem assemble_wire (ir : SchemaIR env) : assemble env ir.wire = .ok ir := by
  unfold assemble
  split
  · rfl
  · rename_i e he
    rw [ir.valid] at he
    cases he

end Ir
end MaskForge
