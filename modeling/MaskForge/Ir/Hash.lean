import MaskForge.Ir.Codecs
/-!
# Hash — the content address of an arena

A node is hashed in arena order from its resolved content, its children standing for themselves by their digests.
`nodeShape` is that content with the children still named by their ids, `Shape.feed` the bytes that go into the hash.
A child without a digest yet is an index out of range: `nodeDigest` and `computeHash` then give `none`.
-/
namespace MaskForge
namespace Ir

open Codec

abbrev Digest := Vector Byte 32

/-- The content of a node; `δ` stands for its children. -/
inductive Shape (δ : Type) where
  | null
  | boolean
  | never
  | stringConst (value : List Byte)
  | stringPattern (regex : List Byte) (minLen maxLen : Option UInt32) (charset : Charset)
  | integer (minimum maximum : Option Int64) (multipleOf : Option UInt64)
  | number (integerOnly : Bool) (minimum maximum : Option DecimalBound) (multipleOf : Option (UInt64 × UInt32))
  | lexicalNumber (regex : List Byte)
  | enum (values : List ScalarLit)
  | array (items : ItemsPolicy δ) (minItems : UInt32) (maxItems : Option UInt32) (uniqueItems : Bool)
      (contains : Option (ContainsConstraint δ)) (itemsAnnotates : Bool)
  | tuple (prefixes : List δ) (tail : Option δ) (minItems : UInt32) (maxItems : Option UInt32)
      (uniqueItems : Bool) (contains : Option (ContainsConstraint δ)) (tailAnnotates : Bool)
  | object (fields : List (List Byte × δ × Bool)) (closure : ObjectClosure) (dependent : List (List Byte × δ))
      (dependentRequired : List (List Byte × List Byte))
  | openObject (known : List (List Byte × δ × Bool)) (patterns : List (List Byte × δ)) (additional : AdditionalPolicy δ)
      (propertyNames : Option δ) (minProperties maxProperties : Option UInt32) (dependent : List (List Byte × δ))
      (dependentRequired : List (List Byte × List Byte))
  | union (branches : List δ)
  | intersection (branches : List δ)
  | exactlyOne (branches : List δ)
  | not (inner : δ)
  | ref (slot : UInt32)
  | dynamicRef (initialTarget : NodeId) (anchor : AnchorId)
  | unevaluated (kind : UnevaluatedKind) (scope unevaluated : δ)
  | unsupported (keyword : List Byte) (reason : UnsupportedReason)

/-! ### Children -/

section
variable {δ ε : Type}

def ItemsPolicy.map (f : δ → ε) : ItemsPolicy δ → ItemsPolicy ε
  | .schema d => .schema (f d)
  | .allowAny => .allowAny

def AdditionalPolicy.map (f : δ → ε) : AdditionalPolicy δ → AdditionalPolicy ε
  | .forbid => .forbid
  | .allowAny => .allowAny
  | .schema d => .schema (f d)
  | .open => .open

def ContainsPolicy.map (f : δ → ε) : ContainsPolicy δ → ContainsPolicy ε
  | .never => .never
  | .always => .always
  | .schema d => .schema (f d)

def ContainsConstraint.map (f : δ → ε) (c : ContainsConstraint δ) : ContainsConstraint ε :=
  ⟨c.policy.map f, c.min, c.max⟩

namespace Shape

def map (f : δ → ε) : Shape δ → Shape ε
  | .null => .null
  | .boolean => .boolean
  | .never => .never
  | .stringConst value => .stringConst value
  | .stringPattern regex minLen maxLen charset => .stringPattern regex minLen maxLen charset
  | .integer minimum maximum multipleOf => .integer minimum maximum multipleOf
  | .number integerOnly minimum maximum multipleOf => .number integerOnly minimum maximum multipleOf
  | .lexicalNumber regex => .lexicalNumber regex
  | .enum values => .enum values
  | .array items minItems maxItems uniqueItems contains itemsAnnotates =>
    .array (items.map f) minItems maxItems uniqueItems (contains.map (·.map f)) itemsAnnotates
  | .tuple prefixes tail minItems maxItems uniqueItems contains tailAnnotates =>
    .tuple (prefixes.map f) (tail.map f) minItems maxItems uniqueItems (contains.map (·.map f)) tailAnnotates
  | .object fields closure dependent dependentRequired =>
    .object (fields.map fun p => (p.1, f p.2.1, p.2.2)) closure (dependent.map fun p => (p.1, f p.2)) dependentRequired
  | .openObject known patterns additional propertyNames minProperties maxProperties dependent dependentRequired =>
    .openObject (known.map fun p => (p.1, f p.2.1, p.2.2)) (patterns.map fun p => (p.1, f p.2)) (additional.map f)
      (propertyNames.map f) minProperties maxProperties (dependent.map fun p => (p.1, f p.2)) dependentRequired
  | .union branches => .union (branches.map f)
  | .intersection branches => .intersection (branches.map f)
  | .exactlyOne branches => .exactlyOne (branches.map f)
  | .not inner => .not (f inner)
  | .ref slot => .ref slot
  | .dynamicRef initialTarget anchor => .dynamicRef initialTarget anchor
  | .unevaluated kind scope schema => .unevaluated kind (f scope) (f schema)
  | .unsupported keyword reason => .unsupported keyword reason

def children : Shape δ → List δ
  | .array items _ _ _ contains _ => items.refs ++ containsRefs contains
  | .tuple prefixes tail _ _ _ contains _ => prefixes ++ tail.toList ++ containsRefs contains
  | .object fields _ dependent _ => fields.map (·.2.1) ++ dependent.map (·.2)
  | .openObject known patterns additional propertyNames _ _ dependent _ =>
    known.map (·.2.1) ++ patterns.map (·.2) ++ additional.refs ++ propertyNames.toList ++ dependent.map (·.2)
  | .union branches | .intersection branches | .exactlyOne branches => branches
  | .not inner => [inner]
  | .unevaluated _ scope schema => [scope, schema]
  | _ => []

end Shape

end

section
variable (w : SchemaIRWire)

def strBytes (r : StrRef) : List Byte := ((w.strAt r).map Str.bytes).getD []

def namedShape (r : PropSlice) : List (List Byte × NodeId) :=
  ((w.propsAt r).getD []).map fun p => (strBytes w p.1, p.2)

/-- Fields with their place in the required set. -/
def fieldShape (r : PropSlice) (required : BitSlice) : List (List Byte × NodeId × Bool) :=
  ((w.propsAt r).getD []).zipIdx.map fun p => (strBytes w p.1.1, p.1.2, w.isRequired required p.2)

/-- The order of pairs of byte strings. -/
def pairLe (p q : List Byte × List Byte) : Prop := p.1 < q.1 ∨ p.1 = q.1 ∧ p.2 ≤ q.2

instance : DecidableRel pairLe := fun _ _ => inferInstanceAs (Decidable (_ ∨ _))

def pairShape (r : DependentRequiredSlice) : List (List Byte × List Byte) :=
  (((w.dependentRequiredAt r).getD []).map fun p => (strBytes w p.trigger, strBytes w p.required)).insertionSort pairLe

/-- What `node_digest` reads of a node. -/
def nodeShape : Node → Shape NodeId
  | .null => .null
  | .boolean => .boolean
  | .never => .never
  | .stringConst value => .stringConst (strBytes w value)
  | .stringPattern regex minLen maxLen charset => .stringPattern (strBytes w regex) minLen maxLen charset
  | .integer minimum maximum multipleOf => .integer minimum maximum multipleOf
  | .number integerOnly minimum maximum multipleOf => .number integerOnly minimum maximum multipleOf
  | .lexicalNumber regex => .lexicalNumber (strBytes w regex)
  | .enum values => .enum ((w.litsAt values).getD [])
  | .array items minItems maxItems uniqueItems contains itemsAnnotates =>
    .array items minItems maxItems uniqueItems contains itemsAnnotates
  | .tuple prefixes tail minItems maxItems uniqueItems tailAnnotates contains =>
    .tuple ((w.refsAt prefixes).getD []) tail minItems maxItems uniqueItems contains tailAnnotates
  | .object fields required closure dependent dependentRequired =>
    .object (fieldShape w fields required) closure (namedShape w dependent) (pairShape w dependentRequired)
  | .openObject known knownRequired patterns additional propertyNames minProperties maxProperties dependent
      dependentRequired =>
    .openObject (fieldShape w known knownRequired) (namedShape w patterns) additional propertyNames minProperties
      maxProperties (namedShape w dependent) (pairShape w dependentRequired)
  | .union branches => .union ((w.refsAt branches).getD [])
  | .intersection branches => .intersection ((w.refsAt branches).getD [])
  | .exactlyOne branches => .exactlyOne ((w.refsAt branches).getD [])
  | .not inner => .not inner
  | .ref slot => .ref slot
  | .dynamicRef initialTarget anchor => .dynamicRef initialTarget anchor
  | .unevaluated kind scope unevaluated => .unevaluated kind scope unevaluated
  | .unsupported keyword reason => .unsupported (strBytes w keyword) reason

/-- The children of a node's content are the schemas it refers to. -/
theorem children_nodeShape (n : Node) : (nodeShape w n).children = schemaRefs w n := by
  have hfields : ∀ r required, (fieldShape w r required).map (·.2.1) = propRefs w r := by
    intro r required
    rw [fieldShape, List.map_map, propRefs, ← List.zipIdx_map_fst 0 ((w.propsAt r).getD []), List.map_map,
      List.zipIdx_map_fst]
    rfl
  have hnamed : ∀ r, (namedShape w r).map (·.2) = propRefs w r := by
    intro r
    simp [namedShape, propRefs, Function.comp_def]
  cases n with
  | object => simp [nodeShape, Shape.children, schemaRefs, hfields, hnamed]
  | openObject => simp [nodeShape, Shape.children, schemaRefs, hfields, hnamed]
  | _ => rfl

end

/-! ### Bytes -/

def digestCodec : Codec Digest := array 32

/-- `lit_bytes`. -/
def litBytes : ScalarLit → List Byte
  | .null => [0]
  | .bool b => 1 :: bool.enc b
  | .int i => 2 :: i64.enc i
  | .str s => 3 :: s.bytes
  | .json s => 4 :: s.bytes

def fieldCodec : Codec (List Byte × Digest × Bool) := bytesCodec.pair (digestCodec.pair bool)
def namedCodec : Codec (List Byte × Digest) := bytesCodec.pair digestCodec
def pairCodec : Codec (List Byte × List Byte) := bytesCodec.pair bytesCodec
def feedContains : Codec (Option (ContainsConstraint Digest)) := opt (containsCodec 1 (by decide) digestCodec)

/-- The bytes `node_digest` feeds to the hash. -/
def Shape.feed : Shape Digest → List Byte
  | .null => [0]
  | .boolean => [1]
  | .never => [16]
  | .stringConst value => 2 :: bytesCodec.enc value
  | .stringPattern regex minLen maxLen charset =>
    3 :: (bytesCodec.pair ((opt u32).pair ((opt u32).pair (charsetCodec 1)))).enc (regex, minLen, maxLen, charset)
  | .integer minimum maximum multipleOf =>
    4 :: ((opt i64).pair ((opt i64).pair (opt u64))).enc (minimum, maximum, multipleOf)
  | .number integerOnly minimum maximum multipleOf =>
    12 :: (bool.pair ((opt decimalBoundCodec).pair ((opt decimalBoundCodec).pair (opt (u64.pair u32))))).enc
      (integerOnly, minimum, maximum, multipleOf)
  | .lexicalNumber regex => 17 :: bytesCodec.enc regex
  | .enum values => 5 :: (vec bytesCodec).enc (values.map litBytes)
  | .array items minItems maxItems uniqueItems contains itemsAnnotates =>
    6 :: ((itemsCodec 1 (by decide) digestCodec).pair
      (u32.pair ((opt u32).pair (bool.pair (feedContains.pair bool))))).enc
      (items, minItems, maxItems, uniqueItems, contains, itemsAnnotates)
  | .tuple prefixes tail minItems maxItems uniqueItems contains tailAnnotates =>
    13 :: ((vec digestCodec).pair ((opt digestCodec).pair (u32.pair ((opt u32).pair (bool.pair
      (feedContains.pair bool)))))).enc (prefixes, tail, minItems, maxItems, uniqueItems, contains, tailAnnotates)
  | .object fields closure dependent dependentRequired =>
    7 :: ((vec fieldCodec).pair ((closureCodec 1).pair ((vec namedCodec).pair (vec pairCodec)))).enc
      (fields, closure, dependent, dependentRequired)
  | .openObject known patterns additional propertyNames minProperties maxProperties dependent dependentRequired =>
    14 :: ((vec fieldCodec).pair ((vec namedCodec).pair ((additionalCodec 1 (by decide) digestCodec).pair
      ((opt digestCodec).pair ((opt u32).pair ((opt u32).pair ((vec namedCodec).pair (vec pairCodec)))))))).enc
      (known, patterns, additional, propertyNames, minProperties, maxProperties, dependent, dependentRequired)
  | .union branches => 9 :: (vec digestCodec).enc branches
  | .intersection branches => 10 :: (vec digestCodec).enc branches
  | .exactlyOne branches => 11 :: (vec digestCodec).enc branches
  | .not inner => 15 :: digestCodec.enc inner
  -- the tag of a lexical number, with four bytes after it where that has at least eight
  | .ref slot => 17 :: u32.enc slot
  | .dynamicRef initialTarget anchor => 19 :: (u32.pair u32).enc (initialTarget, anchor)
  | .unevaluated kind scope schema =>
    18 :: ((unevaluatedKindCodec 1).pair (digestCodec.pair digestCodec)).enc (kind, scope, schema)
  | .unsupported keyword reason => 8 :: (bytesCodec.pair (reasonCodec 4)).enc (keyword, reason)

/-! ### Digests -/

section
variable (blake3 : List Byte → Digest) (w : SchemaIRWire)

/-- The digest a child has so far; only read in range. -/
def digestAt (digests : List Digest) (id : NodeId) : Digest := (digests[id.toNat]?).getD (Vector.replicate 32 0)

def nodeDigest (node : Node) (digests : List Digest) : Option Digest :=
  if ∀ c ∈ (nodeShape w node).children, c.toNat < digests.length then
    some (blake3 ((nodeShape w node).map (digestAt digests)).feed)
  else none

/-- The digests of all nodes, in arena order. -/
def digestsFrom : List Node → List Digest → Option (List Digest)
  | [], digests => some digests
  | node :: rest, digests => (nodeDigest blake3 w node digests).bind fun d => digestsFrom rest (digests ++ [d])

/-- One anchor: its resource, its name and the index of its target. -/
abbrev AnchorFeed := ResourceId × List Byte × NodeId
/-- One resource: its URI, the index of its root, and its anchors, each run behind a flag. -/
abbrev ResourceFeed := Option (List Byte) × NodeId × Bool × List AnchorFeed × Bool × List AnchorFeed
/-- All that goes into the top hash. -/
abbrev TopFeed := UInt16 × Digest × List Digest × ObjectClosure × Bool × UnsupportedPolicy × UInt32 ×
  Option (List Byte) × List ResourceFeed × List ResourceId

def anchorCodec : Codec AnchorFeed := u32.pair (bytesCodec.pair u32)

def resourceCodec : Codec ResourceFeed :=
  (opt bytesCodec).pair (u32.pair (bool.pair ((vec anchorCodec).pair (bool.pair (vec anchorCodec)))))

def topCodec : Codec TopFeed :=
  u16.pair (digestCodec.pair ((vec digestCodec).pair ((closureCodec 1).pair (bool.pair ((unsupportedPolicyCodec 1).pair
    (u32.pair ((opt bytesCodec).pair ((vec resourceCodec).pair (vec u32)))))))))

def anchorFeed (index : Nat) (run : AnchorSlice) : List AnchorFeed :=
  ((runAt w.anchors run).getD []).map fun a => (UInt32.ofNat index, strBytes w a.name, a.target)

def resourceFeed (resource : ResourceRecord) (index : Nat) : ResourceFeed :=
  ((resource.canonicalUri.bind w.strAt).map Str.bytes, resource.root, false, anchorFeed w index resource.staticAnchors,
    true, anchorFeed w index resource.dynamicAnchors)

def topFeed (root : Digest) (defs : List Digest) : TopFeed :=
  (w.irVersion, root, defs, w.options.objectClosure, w.options.formatAssertion, w.options.unsupportedPolicy,
    w.options.maxDiagnostics, (w.retrievalUri.bind w.strAt).map Str.bytes,
    w.resources.zipIdx.map fun p => resourceFeed w p.1 p.2, w.nodeResources)

/-- `compute_hash`; `none` where an index is out of range. -/
def computeHash : Option Digest :=
  (digestsFrom blake3 w w.nodes []).bind fun digests =>
    if w.root.toNat < digests.length ∧ ∀ t ∈ w.defTargets, t.toNat < digests.length then
      some (blake3 (ascii "MFIR-ir-v" ++
        topCodec.enc (topFeed w (digestAt digests w.root) (w.defTargets.map (digestAt digests)))))
    else none

end

/-! ### When the hash is defined -/

section
variable {blake3 : List Byte → Digest} {w : SchemaIRWire}

theorem nodeDigest_isSome {node : Node} {digests : List Digest} :
    (nodeDigest blake3 w node digests).isSome ↔ ∀ c ∈ schemaRefs w node, c.toNat < digests.length := by
  rw [nodeDigest, children_nodeShape]
  by_cases h : ∀ c ∈ schemaRefs w node, c.toNat < digests.length
  · simp only [if_pos h, Option.isSome_some, true_iff]
    exact h
  · simp only [if_neg h, Option.isSome_none, Bool.false_eq_true, false_iff]
    exact h

theorem length_digestsFrom {nodes : List Node} {digests all : List Digest}
    (h : digestsFrom blake3 w nodes digests = some all) : all.length = digests.length + nodes.length := by
  induction nodes generalizing digests with
  | nil =>
    rw [digestsFrom, Option.some.injEq] at h
    rw [← h, List.length_nil, Nat.add_zero]
  | cons node rest ih =>
    rw [digestsFrom, Option.bind_eq_some_iff] at h
    obtain ⟨d, -, hrest⟩ := h
    rw [ih hrest, List.length_append, List.length_cons, List.length_cons, List.length_nil]
    omega

theorem digestsFrom_isSome {nodes : List Node} {digests : List Digest} :
    (digestsFrom blake3 w nodes digests).isSome ↔
      ∀ j (n : Node), nodes[j]? = some n → ∀ c ∈ schemaRefs w n, c.toNat < digests.length + j := by
  induction nodes generalizing digests with
  | nil => simp [digestsFrom]
  | cons node rest ih =>
    rw [digestsFrom]
    have hnode : (nodeDigest blake3 w node digests).isSome ↔ _ := nodeDigest_isSome
    cases hd : nodeDigest blake3 w node digests with
    | none =>
      simp only [hd, Option.isSome_none, Bool.false_eq_true, false_iff] at hnode
      simp only [Option.bind_none, Option.isSome_none, Bool.false_eq_true, false_iff]
      exact fun h => hnode (h 0 node rfl)
    | some d =>
      simp only [hd, Option.isSome_some, true_iff] at hnode
      rw [Option.bind_some, ih, List.length_append, List.length_singleton]
      constructor
      · intro h j n hj
        cases j with
        | zero =>
          cases hj
          exact hnode
        | succ j =>
          intro c hc
          have := h j n hj c hc
          omega
      · intro h j n hj c hc
        have := h (j + 1) n hj c hc
        omega

/-- **The hash is defined exactly where every schema reference goes back**, in an arena otherwise in range. -/
theorem computeHash_isSome (h : InRange w) :
    (computeHash blake3 w).isSome ↔ ∀ i (n : Node), w.nodes[i]? = some n → ∀ c ∈ schemaRefs w n, c.toNat < i := by
  have hd : (digestsFrom blake3 w w.nodes []).isSome ↔ _ := digestsFrom_isSome
  simp only [List.length_nil, Nat.zero_add] at hd
  rw [← hd, computeHash]
  cases hall : digestsFrom blake3 w w.nodes [] with
  | none => simp
  | some digests =>
    have hlen : digests.length = w.nodes.length := by rw [length_digestsFrom hall, List.length_nil, Nat.zero_add]
    have hin : w.root.toNat < digests.length ∧ ∀ t ∈ w.defTargets, t.toNat < digests.length := by
      rw [hlen]
      exact ⟨h.root, h.defTargets⟩
    rw [Option.bind_some, if_pos hin]
    simp

end

end Ir
end MaskForge
