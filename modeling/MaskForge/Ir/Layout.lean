import MaskForge.Ir.Codecs
/-!
# Layout — the fixed-width little-endian layout of an arena

Fields one after the other in the order of their declaration, choices behind a four-byte tag, vectors and strings behind
an eight-byte length, options behind a byte.  Every record but a literal has a bounded size.
-/
namespace MaskForge
namespace Ir

open Codec

def sliceCodec : Codec SliceRef :=
  (u32.pair u32).narrow (fun r => (r.off, r.len)) (fun p => some ⟨p.1, p.2⟩) (fun _ => rfl)
    (fun _ _ h => by cases h; rfl)

theorem total_slice : sliceCodec.Total := (total_u32.pair total_u32).narrow
theorem within_slice : sliceCodec.Within 8 := (within_u32.pair within_u32).narrow

def strCodec : Codec Str :=
  bytesCodec.narrow Str.bytes Str.ofBytes (fun s => dif_pos s.property)
    (fun _ _ h => (Str.ofBytes_some h).symm)

theorem total_charset : (charsetCodec 4).Total := total_enumeration (by decide)
theorem within_charset : (charsetCodec 4).Within 4 := within_enumeration
theorem total_closure : (closureCodec 4).Total := total_enumeration (by decide)
theorem within_closure : (closureCodec 4).Within 4 := within_enumeration
theorem total_policy : (unsupportedPolicyCodec 4).Total := total_enumeration (by decide)
theorem within_policy : (unsupportedPolicyCodec 4).Within 4 := within_enumeration
theorem total_kind : (unevaluatedKindCodec 4).Total := total_enumeration (by decide)
theorem within_kind : (unevaluatedKindCodec 4).Within 4 := within_enumeration
theorem total_reason : (reasonCodec 4).Total := total_enumeration (by decide)
theorem within_reason : (reasonCodec 4).Within 4 := within_enumeration

theorem total_decimal : decimalBoundCodec.Total := total_bits128.pair (total_u32.pair total_bool)
theorem within_decimal : decimalBoundCodec.Within 21 := within_bits128.pair (within_u32.pair within_bool)

theorem total_optU32 : (opt u32).Total := total_u32.opt
theorem within_optU32 : (opt u32).Within 5 := within_u32.opt

/-! ### Policies -/

def itemsLayout : Codec (ItemsPolicy NodeId) := itemsCodec 4 (by decide) u32
def additionalLayout : Codec (AdditionalPolicy NodeId) := additionalCodec 4 (by decide) u32
def containsLayout : Codec (ContainsConstraint NodeId) := containsCodec 4 (by decide) u32

theorem total_items : itemsLayout.Total := fun _ d _ => total_u32 d
theorem total_additional : additionalLayout.Total := fun _ d _ => total_u32 d
theorem total_contains : containsLayout.Total := fun q => ⟨fun d _ => total_u32 d, total_u32 q.min, total_optU32 q.max⟩

theorem within_items : itemsLayout.Within 8
  | .schema d => within_u32.pair within_u32 (0, d)
  | .allowAny => by decide

theorem within_additional : additionalLayout.Within 8
  | .schema d => within_u32.pair within_u32 (0, d)
  | .forbid | .allowAny | .open => by decide

theorem within_contains : containsLayout.Within 17 := fun q =>
  Within.pair (j := 8) (c := containsPolicyCodec 4 (by decide) u32) (fun
    | .schema d => within_u32.pair within_u32 (0, d)
    | .never | .always => by decide) (within_u32.pair within_optU32) (q.policy, q.min, q.max)

/-! ### Nodes -/

def stringPatternLayout : Codec (StrRef × Option UInt32 × Option UInt32 × Charset) :=
  sliceCodec.pair ((opt u32).pair ((opt u32).pair (charsetCodec 4)))

def integerLayout : Codec (Option Int64 × Option Int64 × Option UInt64) := (opt i64).pair ((opt i64).pair (opt u64))

def numberLayout : Codec (Bool × Option DecimalBound × Option DecimalBound × Option (UInt64 × UInt32)) :=
  bool.pair ((opt decimalBoundCodec).pair ((opt decimalBoundCodec).pair (opt (u64.pair u32))))

def arrayLayout : Codec (ItemsPolicy NodeId × UInt32 × Option UInt32 × Bool × Option
    (ContainsConstraint NodeId) × Bool) :=
  itemsLayout.pair (u32.pair ((opt u32).pair (bool.pair ((opt containsLayout).pair bool))))

def tupleLayout : Codec (RefSlice × Option NodeId × UInt32 × Option UInt32 × Bool × Bool ×
    Option (ContainsConstraint NodeId)) :=
  sliceCodec.pair ((opt u32).pair (u32.pair ((opt u32).pair (bool.pair (bool.pair (opt containsLayout))))))

def objectLayout : Codec (PropSlice × BitSlice × ObjectClosure × PropSlice × DependentRequiredSlice) :=
  sliceCodec.pair (sliceCodec.pair ((closureCodec 4).pair (sliceCodec.pair sliceCodec)))

def openObjectLayout : Codec (PropSlice × BitSlice × PropSlice × AdditionalPolicy NodeId × Option NodeId ×
    Option UInt32 × Option UInt32 × PropSlice × DependentRequiredSlice) :=
  sliceCodec.pair (sliceCodec.pair (sliceCodec.pair (additionalLayout.pair ((opt u32).pair ((opt u32).pair
    ((opt u32).pair (sliceCodec.pair sliceCodec)))))))

def dynamicRefLayout : Codec (NodeId × AnchorId) := u32.pair u32

def unevaluatedLayout : Codec (UnevaluatedKind × NodeId × NodeId) := (unevaluatedKindCodec 4).pair (u32.pair u32)

def unsupportedLayout : Codec (StrRef × UnsupportedReason) := sliceCodec.pair (reasonCodec 4)

theorem total_stringPattern : stringPatternLayout.Total :=
  total_slice.pair (total_optU32.pair (total_optU32.pair total_charset))
theorem total_integer : integerLayout.Total := total_i64.opt.pair (total_i64.opt.pair total_u64.opt)
theorem total_number : numberLayout.Total :=
  total_bool.pair (total_decimal.opt.pair (total_decimal.opt.pair (total_u64.pair total_u32).opt))
theorem total_arrayNode : arrayLayout.Total :=
  total_items.pair (total_u32.pair (total_optU32.pair (total_bool.pair (total_contains.opt.pair total_bool))))
theorem total_tuple : tupleLayout.Total := total_slice.pair (total_optU32.pair (total_u32.pair (total_optU32.pair
  (total_bool.pair (total_bool.pair total_contains.opt)))))
theorem total_object : objectLayout.Total :=
  total_slice.pair (total_slice.pair (total_closure.pair (total_slice.pair total_slice)))
theorem total_openObject : openObjectLayout.Total :=
  total_slice.pair (total_slice.pair (total_slice.pair (total_additional.pair (total_optU32.pair (total_optU32.pair
    (total_optU32.pair (total_slice.pair total_slice)))))))
theorem total_dynamicRef : dynamicRefLayout.Total := total_u32.pair total_u32
theorem total_unevaluated : unevaluatedLayout.Total := total_kind.pair (total_u32.pair total_u32)
theorem total_unsupported : unsupportedLayout.Total := total_slice.pair total_reason

/-- What follows a node's tag. -/
def nodeBody : Node → List Byte
  | .null | .boolean | .never => []
  | .stringConst value => sliceCodec.enc value
  | .stringPattern regex minLen maxLen charset => stringPatternLayout.enc (regex, minLen, maxLen, charset)
  | .integer minimum maximum multipleOf => integerLayout.enc (minimum, maximum, multipleOf)
  | .number integerOnly minimum maximum multipleOf => numberLayout.enc (integerOnly, minimum, maximum, multipleOf)
  | .lexicalNumber regex => sliceCodec.enc regex
  | .enum values => sliceCodec.enc values
  | .array items minItems maxItems uniqueItems contains itemsAnnotates =>
    arrayLayout.enc (items, minItems, maxItems, uniqueItems, contains, itemsAnnotates)
  | .tuple prefixes tail minItems maxItems uniqueItems tailAnnotates contains =>
    tupleLayout.enc (prefixes, tail, minItems, maxItems, uniqueItems, tailAnnotates, contains)
  | .object fields required closure dependent dependentRequired =>
    objectLayout.enc (fields, required, closure, dependent, dependentRequired)
  | .openObject known knownRequired patterns additional propertyNames minProperties maxProperties dependent
      dependentRequired =>
    openObjectLayout.enc (known, knownRequired, patterns, additional, propertyNames, minProperties, maxProperties,
      dependent, dependentRequired)
  | .union branches | .intersection branches | .exactlyOne branches => sliceCodec.enc branches
  | .not inner => u32.enc inner
  | .ref slot => u32.enc slot
  | .dynamicRef initialTarget anchor => dynamicRefLayout.enc (initialTarget, anchor)
  | .unevaluated kind scope unevaluated => unevaluatedLayout.enc (kind, scope, unevaluated)
  | .unsupported keyword reason => unsupportedLayout.enc (keyword, reason)

def nodeArms : Nat → List Byte → Option (Node × List Byte)
  | 0 => fun s => some (.null, s)
  | 1 => fun s => some (.boolean, s)
  | 2 => fun s => some (.never, s)
  | 3 => sliceCodec.arm .stringConst
  | 4 => stringPatternLayout.arm fun p => .stringPattern p.1 p.2.1 p.2.2.1 p.2.2.2
  | 5 => integerLayout.arm fun p => .integer p.1 p.2.1 p.2.2
  | 6 => numberLayout.arm fun p => .number p.1 p.2.1 p.2.2.1 p.2.2.2
  | 7 => sliceCodec.arm .lexicalNumber
  | 8 => sliceCodec.arm .enum
  | 9 => arrayLayout.arm fun p => .array p.1 p.2.1 p.2.2.1 p.2.2.2.1 p.2.2.2.2.1 p.2.2.2.2.2
  | 10 => tupleLayout.arm fun p => .tuple p.1 p.2.1 p.2.2.1 p.2.2.2.1 p.2.2.2.2.1 p.2.2.2.2.2.1 p.2.2.2.2.2.2
  | 11 => objectLayout.arm fun p => .object p.1 p.2.1 p.2.2.1 p.2.2.2.1 p.2.2.2.2
  | 12 => openObjectLayout.arm fun p => .openObject p.1 p.2.1 p.2.2.1 p.2.2.2.1 p.2.2.2.2.1 p.2.2.2.2.2.1
      p.2.2.2.2.2.2.1 p.2.2.2.2.2.2.2.1 p.2.2.2.2.2.2.2.2
  | 13 => sliceCodec.arm .union
  | 14 => sliceCodec.arm .intersection
  | 15 => sliceCodec.arm .exactlyOne
  | 16 => u32.arm .not
  | 17 => u32.arm .ref
  | 18 => dynamicRefLayout.arm fun p => .dynamicRef p.1 p.2
  | 19 => unevaluatedLayout.arm fun p => .unevaluated p.1 p.2.1 p.2.2
  | 20 => unsupportedLayout.arm fun p => .unsupported p.1 p.2
  | _ => fun _ => none

theorem nodeArms_body (n : Node) (s : List Byte) : nodeArms n.ctorIdx (nodeBody n ++ s) = some (n, s) := by
  cases n with
  | null | boolean | never => rfl
  | stringConst | lexicalNumber | enum | union | intersection | exactlyOne =>
    exact sliceCodec.arm_enc _ s (total_slice _)
  | stringPattern =>
    simp only [nodeArms, nodeBody, Node.ctorIdx, stringPatternLayout.arm_enc _ s (total_stringPattern _)]
  | integer => simp only [nodeArms, nodeBody, Node.ctorIdx, integerLayout.arm_enc _ s (total_integer _)]
  | number => simp only [nodeArms, nodeBody, Node.ctorIdx, numberLayout.arm_enc _ s (total_number _)]
  | array => simp only [nodeArms, nodeBody, Node.ctorIdx, arrayLayout.arm_enc _ s (total_arrayNode _)]
  | tuple => simp only [nodeArms, nodeBody, Node.ctorIdx, tupleLayout.arm_enc _ s (total_tuple _)]
  | object => simp only [nodeArms, nodeBody, Node.ctorIdx, objectLayout.arm_enc _ s (total_object _)]
  | openObject => simp only [nodeArms, nodeBody, Node.ctorIdx, openObjectLayout.arm_enc _ s (total_openObject _)]
  | not | ref => exact u32.arm_enc _ s (total_u32 _)
  | dynamicRef => simp only [nodeArms, nodeBody, Node.ctorIdx, dynamicRefLayout.arm_enc _ s (total_dynamicRef _)]
  | unevaluated => simp only [nodeArms, nodeBody, Node.ctorIdx, unevaluatedLayout.arm_enc _ s (total_unevaluated _)]
  | unsupported => simp only [nodeArms, nodeBody, Node.ctorIdx, unsupportedLayout.arm_enc _ s (total_unsupported _)]

theorem nodeArms_some {v : Nat} {s t : List Byte} {n : Node} (h : nodeArms v s = some (n, t)) :
    n.ctorIdx = v ∧ s = nodeBody n ++ t := by
  unfold nodeArms at h
  split at h
  all_goals first
    | (cases h; exact ⟨rfl, rfl⟩)
    | (obtain ⟨b, rfl, -, hs⟩ := Codec.arm_some _ h
       exact ⟨rfl, hs⟩)
    | cases h

def nodeCodec : Codec Node :=
  choice 4 Node.ctorIdx nodeBody nodeArms (fun _ => True)
    (by intro a; cases a <;> exact tag_fits (by decide) (Nat.le_of_ble_eq_true rfl))
    (fun n s _ => nodeArms_body n s)
    (fun _ _ _ _ h => ⟨(nodeArms_some h).1, trivial, (nodeArms_some h).2⟩)

theorem total_node : nodeCodec.Total := fun _ => trivial

theorem length_nodeBody (n : Node) : (nodeBody n).length ≤ 63 := by
  cases n with
  | null | boolean | never => decide
  | stringConst | lexicalNumber | enum | union | intersection | exactlyOne => exact (within_slice _).trans (by decide)
  | stringPattern =>
    exact ((within_slice.pair (within_optU32.pair (within_optU32.pair within_charset))) _).trans (by decide)
  | integer => exact ((within_i64.opt.pair (within_i64.opt.pair within_u64.opt)) _).trans (by decide)
  | number =>
    exact ((within_bool.pair (within_decimal.opt.pair (within_decimal.opt.pair (within_u64.pair within_u32).opt)))
      _).trans
      (by decide)
  | array =>
    exact ((within_items.pair (within_u32.pair (within_optU32.pair (within_bool.pair
      (within_contains.opt.pair within_bool))))) _).trans (by decide)
  | tuple =>
    exact ((within_slice.pair (within_optU32.pair (within_u32.pair (within_optU32.pair (within_bool.pair
      (within_bool.pair within_contains.opt)))))) _).trans (by decide)
  | object =>
    exact ((within_slice.pair (within_slice.pair (within_closure.pair (within_slice.pair within_slice)))) _).trans
      (by decide)
  | openObject =>
    exact ((within_slice.pair (within_slice.pair (within_slice.pair (within_additional.pair (within_optU32.pair
      (within_optU32.pair (within_optU32.pair (within_slice.pair within_slice)))))))) _).trans (by decide)
  | not | ref => exact (within_u32 _).trans (by decide)
  | dynamicRef => exact ((within_u32.pair within_u32) _).trans (by decide)
  | unevaluated => exact ((within_kind.pair (within_u32.pair within_u32)) _).trans (by decide)
  | unsupported => exact ((within_slice.pair within_reason) _).trans (by decide)

theorem within_node : nodeCodec.Within 67 := fun n => by
  have h := length_nodeBody n
  have htag : ((nat 4).enc n.ctorIdx).length = 4 := length_leBytes _ _
  simp only [nodeCodec, choice, List.length_append, htag]
  omega

/-! ### Literals -/

theorem fits_str {s : Str} (h : s.bytes.length < 2 ^ 64) : strCodec.Fits s := total_u8.vec h

theorem length_str (s : Str) : (strCodec.enc s).length = 8 + s.bytes.length := by
  have h : (strCodec.enc s).length = 8 + (s.bytes.map fun b => (u8.enc b).length).sum := length_vec u8 s.bytes
  have hone : (s.bytes.map fun b => (u8.enc b).length) = s.bytes.map fun _ => 1 :=
    List.map_congr_left fun b _ => length_leBytes _ _
  rw [h, hone, List.map_const', List.sum_replicate, smul_eq_mul, mul_one]

def scalarLitCodec : Codec ScalarLit :=
  choice 4 ScalarLit.ctorIdx
    (fun
      | .null => []
      | .bool b => bool.enc b
      | .int i => i64.enc i
      | .str s => strCodec.enc s
      | .json s => strCodec.enc s)
    (fun
      | 0 => fun s => some (.null, s)
      | 1 => bool.arm .bool
      | 2 => i64.arm .int
      | 3 => strCodec.arm .str
      | 4 => strCodec.arm .json
      | _ => fun _ => none)
    (fun
      | .str s => strCodec.Fits s
      | .json s => strCodec.Fits s
      | _ => True)
    (by intro a; cases a <;> exact tag_fits (by decide) (Nat.le_of_ble_eq_true rfl))
    (by
      intro a s h
      cases a with
      | null => rfl
      | bool b => exact bool.arm_enc _ s (total_bool b)
      | int i => exact i64.arm_enc _ s (total_i64 i)
      | str t => exact strCodec.arm_enc _ s h
      | json t => exact strCodec.arm_enc _ s h)
    (by
      intro v s a t h
      split at h
      · cases h
        exact ⟨rfl, trivial, rfl⟩
      · obtain ⟨b, rfl, -, hs⟩ := bool.arm_some h
        exact ⟨rfl, trivial, hs⟩
      · obtain ⟨b, rfl, -, hs⟩ := i64.arm_some h
        exact ⟨rfl, trivial, hs⟩
      · obtain ⟨b, rfl, hb, hs⟩ := strCodec.arm_some h
        exact ⟨rfl, hb, hs⟩
      · obtain ⟨b, rfl, hb, hs⟩ := strCodec.arm_some h
        exact ⟨rfl, hb, hs⟩
      · cases h)

def ScalarLit.contentBytes : ScalarLit → Nat
  | .str s | .json s => s.bytes.length
  | _ => 0

/-- A literal takes twelve bytes and its content. -/
theorem length_scalarLit (l : ScalarLit) : (scalarLitCodec.enc l).length ≤ 12 + l.contentBytes := by
  have htag : ((nat 4).enc l.ctorIdx).length = 4 := length_leBytes _ _
  simp only [scalarLitCodec, choice, List.length_append, htag]
  cases l with
  | null => simp [ScalarLit.contentBytes]
  | bool b =>
    have := within_bool b
    simp only
    omega
  | int i =>
    have := within_i64 i
    simp only
    omega
  | str s =>
    simp only [length_str, ScalarLit.contentBytes]
    omega
  | json s =>
    simp only [length_str, ScalarLit.contentBytes]
    omega

/-! ### Records -/

def propLayout : Codec (StrRef × NodeId) := sliceCodec.pair u32

def pairLayout : Codec DependentRequiredPair :=
  (sliceCodec.pair sliceCodec).narrow (fun p => (p.trigger, p.required)) (fun p => some ⟨p.1, p.2⟩) (fun _ => rfl)
    (fun _ _ h => by cases h; rfl)

def resourceLayout : Codec ResourceRecord :=
  ((opt sliceCodec).pair (u32.pair (sliceCodec.pair sliceCodec))).narrow
    (fun r => (r.canonicalUri, r.root, r.staticAnchors, r.dynamicAnchors))
      (fun p => some ⟨p.1, p.2.1, p.2.2.1, p.2.2.2⟩)
    (fun _ => rfl) (fun _ _ h => by cases h; rfl)

def anchorLayout : Codec AnchorRecord :=
  (u32.pair (sliceCodec.pair u32)).narrow (fun a => (a.resource, a.name, a.target))
    (fun p => some ⟨p.1, p.2.1, p.2.2⟩) (fun _ => rfl) (fun _ _ h => by cases h; rfl)

def optionsLayout : Codec CompileOptions :=
  ((closureCodec 4).pair (bool.pair ((unsupportedPolicyCodec 4).pair u32))).narrow
    (fun o => (o.objectClosure, o.formatAssertion, o.unsupportedPolicy, o.maxDiagnostics))
    (fun p => some ⟨p.1, p.2.1, p.2.2.1, p.2.2.2⟩) (fun _ => rfl) (fun _ _ h => by cases h; rfl)

def spanLayout : Codec Span :=
  (u32.pair u32).narrow (fun s => (s.start, s.stop)) (fun p => some ⟨p.1, p.2⟩) (fun _ => rfl)
    (fun _ _ h => by cases h; rfl)

def diagnosticLayout : Codec Diagnostic :=
  (u32.pair (sliceCodec.pair (sliceCodec.pair ((opt spanLayout).pair (reasonCodec 4))))).narrow
    (fun d => (d.node, d.keyword, d.jsonPointer, d.sourceSpan, d.reason))
    (fun p => some ⟨p.1, p.2.1, p.2.2.1, p.2.2.2.1, p.2.2.2.2⟩) (fun _ => rfl) (fun _ _ h => by cases h; rfl)

theorem total_prop : propLayout.Total := total_slice.pair total_u32
theorem within_prop : propLayout.Within 12 := within_slice.pair within_u32
theorem total_pair : pairLayout.Total := (total_slice.pair total_slice).narrow
theorem within_pair : pairLayout.Within 16 := (within_slice.pair within_slice).narrow
theorem total_resource : resourceLayout.Total :=
  (total_slice.opt.pair (total_u32.pair (total_slice.pair total_slice))).narrow
theorem within_resource : resourceLayout.Within 29 :=
  (within_slice.opt.pair (within_u32.pair (within_slice.pair within_slice))).narrow
theorem total_anchor : anchorLayout.Total := (total_u32.pair (total_slice.pair total_u32)).narrow
theorem within_anchor : anchorLayout.Within 16 := (within_u32.pair (within_slice.pair within_u32)).narrow
theorem total_options : optionsLayout.Total :=
  (total_closure.pair (total_bool.pair (total_policy.pair total_u32))).narrow
theorem within_options : optionsLayout.Within 13 :=
  (within_closure.pair (within_bool.pair (within_policy.pair within_u32))).narrow
theorem total_diagnostic : diagnosticLayout.Total :=
  (total_u32.pair (total_slice.pair (total_slice.pair
    ((total_u32.pair total_u32).narrow.opt.pair total_reason)))).narrow
theorem within_diagnostic : diagnosticLayout.Within 33 :=
  (within_u32.pair (within_slice.pair (within_slice.pair ((within_u32.pair within_u32).narrow.opt.pair
    within_reason)))).narrow

/-! ### The arena -/

/-- The fields of an arena, in order. -/
abbrev WireFields := UInt16 × NodeId × List Node × List Byte × List ScalarLit × List (StrRef × NodeId) ×
  List DependentRequiredPair × List UInt64 × List NodeId × List NodeId × Option StrRef × List ResourceRecord ×
  List AnchorRecord × List ResourceId × CompileOptions × List Diagnostic

def wireFieldsCodec : Codec WireFields :=
  u16.pair (u32.pair ((vec nodeCodec).pair ((vec u8).pair ((vec scalarLitCodec).pair ((vec propLayout).pair ((vec
    pairLayout).pair ((vec u64).pair ((vec u32).pair ((vec u32).pair ((opt sliceCodec).pair ((vec
    resourceLayout).pair ((vec anchorLayout).pair ((vec u32).pair (optionsLayout.pair (vec
    diagnosticLayout)))))))))))))))

def SchemaIRWire.fields (w : SchemaIRWire) : WireFields :=
  (w.irVersion, w.root, w.nodes, w.strings, w.literals, w.props, w.dependentRequiredPairs, w.requiredBits, w.nodeRefs,
    w.defTargets, w.retrievalUri, w.resources, w.anchors, w.nodeResources, w.options, w.diagnostics)

def SchemaIRWire.ofFields : WireFields → SchemaIRWire
  | (irVersion, root, nodes, strings, literals, props, dependentRequiredPairs, requiredBits, nodeRefs, defTargets,
      retrievalUri, resources, anchors, nodeResources, options, diagnostics) =>
    ⟨irVersion, root, nodes, strings, literals, props, dependentRequiredPairs, requiredBits, nodeRefs, defTargets,
      retrievalUri, resources, anchors, nodeResources, options, diagnostics⟩

/-- The layout of a whole arena. -/
def wireCodec : Codec SchemaIRWire :=
  wireFieldsCodec.narrow SchemaIRWire.fields (fun p => some (.ofFields p)) (fun _ => rfl) (fun _ _ h => by cases h; rfl)

end Ir
end MaskForge
