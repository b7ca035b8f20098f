import MaskForge.Frontend.Ast
/-!
# Lowering — which schemas the lowering of a schema goes on to

The lowering is a family of mutually recursive functions over the syntax tree.  What is kept here of each is the calls
it makes of the others, in the order it makes them, and the errors that stop it between two calls.  What a function
builds from its results decides no call.  Checks that read only their own keyword (a bound, a pattern, a literal) can
end a function early or refuse the schema, and so make no calls of their own.
-/
namespace MaskForge
namespace Frontend

/-- The members of an object, under the names they are written with. -/
abbrev Fields := List (Text × Ast)

def maxDepth : Nat := 64

def maxExpandedNodes : Nat := 100000

def limit (what : String) : FrontendError := ⟨.internalLimitExceeded, what, none, none⟩

def expandedNodeLimit (pointer : Text) : FrontendError :=
  ⟨.internalLimitExceeded, "expanded schema-node budget exceeded", some pointer, none⟩

def malformedAt (ptr : Text) (keyword message : String) : FrontendError := malformed ptr keyword.toList message

/-! ### Dialects -/

structure DialectQuirks where
  refExclusive : Bool
  ifThenElseUnsupported : Bool
  deriving DecidableEq, Repr

def stripPrefix (start s : Text) : Option Text := if start.isPrefixOf s then some (s.drop start.length) else none

/-- `trim_end_matches('#')`. -/
def trimHashes (s : Text) : Text := s.rdropWhile fun c => decide (c = '#')

def dialectQuirks (dialect : Text) : DialectQuirks :=
  let dialect := trimHashes dialect
  let path := ((stripPrefix "https://".toList dialect).orElse fun _ => stripPrefix "http://".toList dialect).getD
    dialect
  if path = "json-schema.org/draft-07/schema".toList then ⟨true, false⟩
  else if path = "json-schema.org/draft-03/schema".toList ∨ path = "json-schema.org/draft-04/schema".toList ∨
      path = "json-schema.org/draft-06/schema".toList then ⟨true, true⟩
  else ⟨false, false⟩

def declaredDialect : Ast → Option Text
  | .obj fields =>
    match get fields "$schema".toList with
    | some (.str dialect) => some dialect
    | _ => none
  | _ => none

/-! ### Calls -/

/-- Which `unevaluated*` keywords a schema is lowered under. -/
structure OpenUnder where
  unevaluatedProperties : Bool
  unevaluatedItems : Bool
  deriving DecidableEq, Repr

def OpenUnder.none : OpenUnder := ⟨false, false⟩

/-- A call of one of the functions of the lowering, or the error that stops it. -/
inductive Call where
  | lower (node : Ast) (ptr : Text) (depth : Nat) (under : OpenUnder)
  | lowerScope (fields : Fields) (ptr : Text) (depth : Nat) (under : OpenUnder)
  | lowerBase (fields : Fields) (ptr : Text) (depth : Nat) (under : OpenUnder)
  | lowerTypeless (fields : Fields) (ptr : Text) (depth : Nat) (under : OpenUnder)
  | lowerTyped (ty : Text) (fields : Fields) (ptr : Text) (depth : Nat) (under : OpenUnder)
  | lowerRef (reference : Ast) (ptr : Text) (depth : Nat) (under : OpenUnder)
  | lowerDynamicRef (reference : Ast) (ptr : Text)
  | fail (error : FrontendError)

/-- `lower_isolated`: under no `unevaluated*` keyword. -/
def lowerIsolated (child : Ast) (ptr : Text) (depth : Nat) : Call := .lower child ptr depth .none

def lowerTypelessIsolated (ptr : Text) (depth : Nat) : Call := .lowerTypeless [] ptr depth .none

/-- `format!("{ptr}/{i}")`. -/
def indexPtr (ptr : Text) (i : Nat) : Text := ptr ++ '/' :: (toString i).toList

/-- The items of an array keyword, each lowered where it stands. -/
def itemCalls (call : Ast → Text → Call) (ptr : Text) (items : List Ast) : List Call :=
  items.zipIdx.map fun (item, i) => call item (indexPtr ptr i)

/-- The entries of an object keyword, each lowered where it stands. -/
def entryCalls (call : Ast → Text → Call) (ptr : Text) (entries : Fields) : List Call :=
  entries.map fun (name, sub) => call sub (ptr ++ '/' :: ptrEscape name)

/-- A keyword whose value is one schema. -/
def memberCalls (call : Ast → Text → Call) (fields : Fields) (keyword : String) (ptr : Text) : List Call :=
  match get fields keyword.toList with
  | some sub => [call sub (childPtr ptr keyword.toList)]
  | none => []

/-- `lower_any_of`, `lower_all_of`, `lower_one_of`. -/
def lowerBranches (keyword : String) (branches : Ast) (ptr : Text) (depth : Nat) (under : OpenUnder) : List Call :=
  let ptr := childPtr ptr keyword.toList
  match branches with
  | .arr [] => [.fail (malformedAt ptr keyword (keyword ++ " must be non-empty"))]
  | .arr items => itemCalls (fun item ptr => .lower item ptr (depth + 1) under) ptr items
  | _ => [.fail (malformedAt ptr keyword (keyword ++ " must be an array"))]

def lowerIfThenElse (fields : Fields) (ptr : Text) (depth : Nat) (under : OpenUnder) : List Call :=
  let sub := fun node ptr => Call.lower node ptr (depth + 1) under
  let branch := fun (keyword : String) =>
    if objHas fields keyword.toList then memberCalls sub fields keyword ptr else [.lowerTypeless [] ptr depth under]
  if !objHas fields "then".toList && !objHas fields "else".toList then
    if under.unevaluatedProperties || under.unevaluatedItems then memberCalls sub fields "if" ptr
    else [.lowerTypeless [] ptr depth under]
  else memberCalls sub fields "if" ptr ++ branch "then" ++ branch "else"

def annotationKeywords : List String :=
  ["title", "description", "$comment", "default", "examples", "deprecated", "readOnly", "writeOnly", "$schema",
    "$id", "$anchor", "$dynamicAnchor", "$defs", "definitions", "$vocabulary"]

def applicatorKeywords : List String := ["$ref", "$dynamicRef", "anyOf", "allOf", "oneOf", "not", "if", "then", "else"]

def hasBaseAssertion (fields : Fields) : Bool :=
  fields.any fun f => !(applicatorKeywords ++ annotationKeywords).any fun k => decide (f.1 = k.toList)

def lowerScopeCalls (quirks : DialectQuirks) (fields : Fields) (ptr : Text) (depth : Nat) (under : OpenUnder) :
    List Call :=
  let base := Call.lowerBase fields ptr depth under
  let branches := fun (keyword : String) =>
    match get fields keyword.toList with
    | some value => lowerBranches keyword value ptr depth under
    | none => []
  let reference :=
    match get fields "$ref".toList with
    | some reference => [Call.lowerRef reference ptr depth under]
    | none => []
  let dynamicRef :=
    match get fields "$dynamicRef".toList with
    | some reference => [Call.lowerDynamicRef reference ptr]
    | none => []
  let hasIf := objHas fields "if".toList && !quirks.ifThenElseUnsupported
  if objHas fields "$ref".toList && quirks.refExclusive then reference
  else if objHas fields "$ref".toList || objHas fields "$dynamicRef".toList || hasIf ||
      ["anyOf", "allOf", "oneOf", "not"].any fun k => objHas fields k.toList then
    reference ++ dynamicRef ++ branches "anyOf" ++ branches "allOf" ++ branches "oneOf" ++
      memberCalls (fun sub ptr => lowerIsolated sub ptr (depth + 1)) fields "not" ptr ++
      (if hasIf then lowerIfThenElse fields ptr depth under else []) ++ (if hasBaseAssertion fields then [base] else [])
  else [base]

def lowerUnevaluated (fields : Fields) (ptr : Text) (depth : Nat) (under : OpenUnder) (hasUp hasUi : Bool) :
    List Call :=
  let isolated := fun (keyword : String) => memberCalls (fun sub ptr => lowerIsolated sub ptr (depth + 1))
    fields keyword ptr
  .lowerScope fields ptr depth ⟨under.unevaluatedProperties || hasUp, under.unevaluatedItems || hasUi⟩ ::
    ((if hasUp then isolated "unevaluatedProperties" else []) ++ (if hasUi then isolated "unevaluatedItems" else []))

/-- `lower_inner`, past the checks of its depth and its budget. -/
def lowerInner (node : Ast) (ptr : Text) (depth : Nat) (under : OpenUnder) : List Call :=
  match node with
  | .obj fields =>
    let hasUp := objHas fields "unevaluatedProperties".toList
    let hasUi := objHas fields "unevaluatedItems".toList
    if hasUp || hasUi then lowerUnevaluated fields ptr depth under hasUp hasUi else [.lowerScope fields ptr depth under]
  | .bool true => [.lowerTypeless [] ptr depth under]
  | .bool false => []
  | _ => [.fail (malformedAt ptr "type" "a schema must be an object")]

def validTypeNames : List String := ["null", "boolean", "integer", "number", "string", "array", "object"]

/-- The names of a `type` array, each once. -/
def typeNames (typePtr : Text) : List Ast → List Text → Except FrontendError (List Text)
  | [], names => .ok names
  | .str name :: items, names =>
    if validTypeNames.any fun k => decide (name = k.toList) then
      typeNames typePtr items (if name ∈ names then names else names ++ [name])
    else .error (malformedAt typePtr "type" "unrecognized JSON Schema type name")
  | _ :: _, _ => .error (malformedAt typePtr "type" "each type in the array must be a string")

/-- `const` and `enum` are read as literals, and nothing beside them is lowered. -/
def isLiteral (fields : Fields) : Bool := objHas fields "const".toList || objHas fields "enum".toList

def lowerTypeUnion (items : List Ast) (fields : Fields) (ptr : Text) (depth : Nat) (under : OpenUnder) : List Call :=
  let typePtr := childPtr ptr "type".toList
  match items with
  | [] => [.fail (malformedAt typePtr "type" "type array must be non-empty")]
  | _ =>
    match typeNames typePtr items [] with
    | .error e => [.fail e]
    | .ok names => if isLiteral fields then [] else names.map fun name => .lowerTyped name fields ptr depth under

def lowerBaseCalls (validationEnabled : Bool) (fields : Fields) (ptr : Text) (depth : Nat) (under : OpenUnder) :
    List Call :=
  if !validationEnabled then [.lowerTypeless fields ptr depth under]
  else
    match get fields "type".toList with
    | none => [.lowerTypeless fields ptr depth under]
    | some (.arr items) => lowerTypeUnion items fields ptr depth under
    | some (.str t) => if isLiteral fields then [] else [.lowerTyped t fields ptr depth under]
    | some _ => [.fail (malformedAt (childPtr ptr "type".toList) "type" "type must be a string")]

def objectOnlyKeywords : List String :=
  ["properties", "patternProperties", "additionalProperties", "propertyNames", "minProperties", "maxProperties",
    "required", "dependentSchemas", "dependentRequired", "dependencies"]

def lowerTypelessCalls (fields : Fields) (ptr : Text) (depth : Nat) (under : OpenUnder) : List Call :=
  let typed := fun (ty : String) => Call.lowerTyped ty.toList fields ptr depth under
  if isLiteral fields then []
  else
    (if objectOnlyKeywords.any fun k => objHas fields k.toList then [typed "object"] else []) ++
      [typed "string", typed "number", typed "array"]

/-! ### Arrays and objects -/

def lowerContains (fields : Fields) (ptr : Text) (depth : Nat) : List Call :=
  match get fields "contains".toList with
  | none => []
  | some (.bool _) => []
  | some sub => [lowerIsolated sub (childPtr ptr "contains".toList) (depth + 1)]

def lowerTuple (fields : Fields) (ptr : Text) (depth : Nat) : List Call :=
  let prefixPtr := childPtr ptr "prefixItems".toList
  match get fields "prefixItems".toList with
  | some (.arr []) => [.fail (malformedAt prefixPtr "prefixItems" "prefixItems must be non-empty")]
  | some (.arr items) =>
    itemCalls (fun item ptr => lowerIsolated item ptr (depth + 1)) prefixPtr items ++
      (match get fields "items".toList with
        | some (.bool false) => []
        | some (.bool true) => [lowerTypelessIsolated ptr depth]
        | none => [lowerTypelessIsolated ptr depth]
        | some sub => [lowerIsolated sub (childPtr ptr "items".toList) (depth + 1)]) ++
      lowerContains fields ptr depth
  | _ => [.fail (malformedAt prefixPtr "prefixItems" "prefixItems must be an array")]

def lowerArray (fields : Fields) (ptr : Text) (depth : Nat) : List Call :=
  (match get fields "uniqueItems".toList with
    | none => []
    | some (.bool _) => []
    | some _ => [.fail (malformedAt ptr "uniqueItems" "uniqueItems must be a boolean")]) ++
  if objHas fields "prefixItems".toList then lowerTuple fields ptr depth
  else
    lowerContains fields ptr depth ++
      match get fields "items".toList with
      | none => []
      | some (.bool true) => []
      | some sub => [lowerIsolated sub (childPtr ptr "items".toList) (depth + 1)]

/-- `required_set`: the names of `required`, each once. -/
def requiredSet (ptr : Text) : List Ast → List Text → Except FrontendError (List Text)
  | [], names => .ok names
  | .str name :: items, names =>
    if name ∈ names then .error (malformedAt (childPtr ptr "required".toList) "required" "duplicate required name")
    else requiredSet ptr items (names ++ [name])
  | _ :: _, _ => .error (malformedAt (childPtr ptr "required".toList) "required" "required names must be strings")

def requiredNames (fields : Fields) (ptr : Text) : Except FrontendError (List Text) :=
  match get fields "required".toList with
  | none => .ok []
  | some (.arr items) => requiredSet ptr items []
  | some _ => .error (malformedAt (childPtr ptr "required".toList) "required" "required must be an array")

/-- The entries of a keyword that holds a map of schemas. -/
def entriesOf (fields : Fields) (keyword : String) (ptr : Text) : Except FrontendError Fields :=
  match get fields keyword.toList with
  | some (.obj entries) => .ok entries
  | some _ => .error (malformedAt (childPtr ptr keyword.toList) keyword (keyword ++ " must be an object"))
  | none => .ok []

/-- The schemas among the entries of the legacy keyword; the arrays among them are lists of names. -/
def legacySchemaEntries (keywordPtr : Text) : Fields → Except FrontendError Fields
  | [] => .ok []
  | (key, value) :: entries =>
    match value with
    | .arr _ => legacySchemaEntries keywordPtr entries
    | .obj _ | .bool _ => (legacySchemaEntries keywordPtr entries).map fun rest => (key, value) :: rest
    | _ => .error (malformedAt (childPtr keywordPtr key) "dependencies"
        "a dependencies entry must be an array or a schema")

def legacyDependenciesPairs (fields : Fields) (ptr : Text) : Except FrontendError Fields :=
  (entriesOf fields "dependencies" ptr).bind (legacySchemaEntries (childPtr ptr "dependencies".toList))

/-- What a check lets follow, or the error it stops with. -/
def callsOf {α : Type} (checked : Except FrontendError α) (calls : α → List Call) : List Call :=
  match checked with
  | .error e => [.fail e]
  | .ok a => calls a

def lowerObject (fields : Fields) (ptr : Text) (depth : Nat) (under : OpenUnder) : List Call :=
  let isolated := fun node ptr => lowerIsolated node ptr (depth + 1)
  let plain := fun node ptr => Call.lower node ptr (depth + 1) under
  let at_ := fun (keyword : String) => childPtr ptr keyword.toList
  callsOf (requiredNames fields ptr) fun required =>
  callsOf (entriesOf fields "properties" ptr) fun entries =>
  entryCalls isolated (at_ "properties") entries ++
  ((required.filter fun name => !objHas entries name).map fun _ => lowerTypelessIsolated ptr depth) ++
  callsOf (entriesOf fields "patternProperties" ptr) fun patternEntries =>
  entryCalls isolated (at_ "patternProperties") patternEntries ++
  callsOf (entriesOf fields "dependentSchemas" ptr) fun dependentEntries =>
  callsOf (legacyDependenciesPairs fields ptr) fun legacyEntries =>
  entryCalls plain (at_ "dependentSchemas") dependentEntries ++ entryCalls plain (at_ "dependencies") legacyEntries ++
  memberCalls isolated fields "propertyNames" ptr ++
  match get fields "additionalProperties".toList with
  | none => []
  | some (.bool _) => []
  | some sub => [isolated sub (at_ "additionalProperties")]

def lowerTypedCalls (ty : Text) (fields : Fields) (ptr : Text) (depth : Nat) (under : OpenUnder) : List Call :=
  if ty = "array".toList then lowerArray fields ptr depth
  else if ty = "object".toList then lowerObject fields ptr depth under
  else []

/-- The calls a call makes, in order.  A reference is followed by what reads it. -/
def Call.calls (quirks : DialectQuirks) (validationEnabled : Bool) : Call → List Call
  | .lower node ptr depth under => lowerInner node ptr depth under
  | .lowerScope fields ptr depth under => lowerScopeCalls quirks fields ptr depth under
  | .lowerBase fields ptr depth under => lowerBaseCalls validationEnabled fields ptr depth under
  | .lowerTypeless fields ptr depth under => lowerTypelessCalls fields ptr depth under
  | .lowerTyped ty fields ptr depth under => lowerTypedCalls ty fields ptr depth under
  | .lowerRef .. | .lowerDynamicRef .. | .fail _ => []

end Frontend
end MaskForge
