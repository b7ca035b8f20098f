import MaskForge.Ir.Builder
/-!
# RoundTrip — what the builder finishes, the envelope carries

The builder holds its caps through every call, failed or not, and the caps it does not hold validation checks.  So a
finished arena is within the caps of the decoder, below the envelope's size limit, and comes back from its envelope.
-/
namespace MaskForge
namespace Ir

open Attempt (Keeps Leads)

namespace Builder

/-- The caps, with `n` diagnostics at most. -/
structure WithinCaps (n : Nat) (b : Builder) : Prop where
  nodes : b.nodes.length ≤ maxNodes
  strings : b.strings.blob.length ≤ maxStringsBytes
  literals : b.literals.blob.length ≤ maxLiterals
  props : b.props.blob.length ≤ maxProps
  pairs : b.dependentRequiredPairs.blob.length ≤ maxDependentRequiredPairs
  bits : b.requiredBits.blob.length ≤ maxRequiredWords
  refs : b.nodeRefs.blob.length ≤ maxNodeRefs
  defs : b.defTargets.length ≤ maxNodes
  diagnostics : b.diagnostics.length ≤ n
  counted : b.literalStrBytes = Ir.literalStrBytes b.literals.blob
  content : b.literalStrBytes ≤ maxLiteralStrBytes
  owners : b.nodeResources.length = b.nodes.length

theorem WithinCaps.mono {n m : Nat} {b : Builder} (h : WithinCaps n b) (hnm : n ≤ m) : WithinCaps m b :=
  { h with diagnostics := h.diagnostics.trans hnm }

theorem withinCaps_new (options : CompileOptions) : WithinCaps 0 (new options) := by
  constructor
  all_goals simp [new, Interned.empty, Ir.literalStrBytes]

/-! ### Interning -/

theorem Interned.intern_ok {α : Type} [DecidableEq α] {b b' : Interned α} {cap : Nat} {full offset length : String}
    {items : List α} {r : SliceRef} (h : b.intern cap full offset length items = .ok (r, b'))
    (hb : b.blob.length ≤ cap) : b'.blob.length ≤ cap := by
  rw [Interned.intern] at h
  split at h
  · cases h
    exact hb
  · simp only [bind_eq_ok, check_ok, decide_eq_true_eq, Except.ok.injEq, Prod.mk.injEq] at h
    obtain ⟨-, hroom, -, -, -, -, -, rfl⟩ := h
    simpa only [Interned.extend, List.length_append] using hroom

theorem keeps_internIn {α : Type} [DecidableEq α] {blob : Builder → Interned α} {put : Builder → Interned α → Builder}
    {inv : Builder → Prop} {cap : Nat} {full offset length : String} {items : List α}
    (hcap : ∀ b, inv b → (blob b).blob.length ≤ cap) (hput : ∀ b i, inv b → i.blob.length ≤ cap → inv (put b i)) :
    Keeps inv (internIn blob put cap full offset length items) := by
  refine .step fun s r s' hs h => ?_
  simp only [bind_eq_ok, Except.ok.injEq, Prod.mk.injEq] at h
  obtain ⟨⟨r', b⟩, hb, rfl, rfl⟩ := h
  exact hput s b hs (Interned.intern_ok hb (hcap s hs))

section
variable {n : Nat}

theorem keeps_internStr (s : Str) : Keeps (WithinCaps n) (internStr s) :=
  keeps_internIn (fun _ h => h.strings) fun _ _ h hi => { h with strings := hi }

theorem keeps_internProps (pairs : List (StrRef × NodeId)) : Keeps (WithinCaps n) (internProps pairs) :=
  keeps_internIn (fun _ h => h.props) fun _ _ h hi => { h with props := hi }

theorem keeps_internRefs (refs : List NodeId) : Keeps (WithinCaps n) (internRefs refs) :=
  keeps_internIn (fun _ h => h.refs) fun _ _ h hi => { h with refs := hi }

theorem keeps_internPairs (refs : List DependentRequiredPair) : Keeps (WithinCaps n) (internPairs refs) :=
  keeps_internIn (fun _ h => h.pairs) fun _ _ h hi => { h with pairs := hi }

theorem literalStrBytes_append (xs ys : List ScalarLit) :
    Ir.literalStrBytes (xs ++ ys) = Ir.literalStrBytes xs + Ir.literalStrBytes ys := by
  rw [literalStrBytes_eq, literalStrBytes_eq, literalStrBytes_eq, List.map_append, List.sum_append]

theorem keeps_internLits (lits : List ScalarLit) : Keeps (WithinCaps n) (internLits lits) := by
  refine .step fun s r s' hs h => ?_
  split at h
  · cases h
    exact hs
  · simp only [bind_eq_ok, check_ok, decide_eq_true_eq, Except.ok.injEq, Prod.mk.injEq] at h
    obtain ⟨-, hroom, -, hbytes, -, -, -, -, -, rfl⟩ := h
    refine { hs with literals := ?_, counted := ?_, content := hbytes }
    · simpa only [Interned.extend, List.length_append] using hroom
    · rw [Interned.extend, literalStrBytes_append, ← hs.counted]

theorem keeps_internBits (words : List UInt64) (fieldCount : UInt32) :
    Keeps (WithinCaps n) (internBits words fieldCount) := by
  refine .step fun s r s' hs h => ?_
  split at h
  · cases h
    exact hs
  · simp only [bind_eq_ok, check_ok, decide_eq_true_eq, Except.ok.injEq, Prod.mk.injEq] at h
    obtain ⟨-, hroom, -, -, -, rfl⟩ := h
    refine { hs with bits := ?_ }
    simpa only [Interned.extend, List.length_append] using hroom

theorem keeps_internNode (node : Node) : Keeps (WithinCaps n) (internNode node) := by
  refine .step fun s r s' hs h => ?_
  split at h
  · cases h
    exact hs
  · simp only [bind_eq_ok, check_ok, decide_eq_true_eq, Except.ok.injEq, Prod.mk.injEq] at h
    obtain ⟨-, hroom, -, -, -, rfl⟩ := h
    refine { hs with nodes := ?_, owners := ?_ }
    · rw [List.length_append, List.length_singleton]
      exact hroom
    · rw [List.length_append, List.length_append, hs.owners, List.length_singleton, List.length_singleton]

theorem keeps_require (c : Bool) (err : CompileError) : Keeps (WithinCaps n) (require c err) := .lift _

theorem keeps_internNames (fields : List (Str × NodeId)) : Keeps (WithinCaps n) (internNames fields) :=
  .collect (fun p => (keeps_internStr p.1).bind fun _ => .pure _) fields

theorem keeps_internDependent (dependent : List (Str × NodeId)) : Keeps (WithinCaps n) (internDependent dependent) :=
  (keeps_internNames dependent).bind keeps_internProps

theorem keeps_internDependentRequired (groups : List (Str × List Str)) :
    Keeps (WithinCaps n) (internDependentRequired groups) := by
  refine (keeps_require _ _).bind fun _ => (keeps_require _ _).bind fun _ => (keeps_require _ _).bind fun _ => ?_
  refine Keeps.bind (.collect (fun (g : Str × List Str) => (keeps_internStr g.1).bind fun _ =>
    .collect (fun name => ?_) g.2) _)
    fun refs => keeps_internPairs _
  exact (keeps_internStr name).bind fun _ => .pure _

theorem keeps_internNamedFields (fields : List (Str × NodeId)) (required : List Bool) :
    Keeps (WithinCaps n) (internNamedFields fields required) := by
  refine (keeps_require _ _).bind fun _ => (keeps_require _ _).bind fun _ =>
    (keeps_internNames fields).bind fun pairs => ?_
  refine Keeps.bind (.lift _) fun fieldCount => (keeps_internProps pairs).bind fun props => ?_
  exact (keeps_internBits _ _).bind fun bits => .pure _

/-! ### Calls -/

theorem keeps_combine (empty : String) (node : RefSlice → Node) (branches : List NodeId) :
    Keeps (WithinCaps n) (combine empty node branches) :=
  match branches with
  | [] => .lift _
  | [_] => .pure _
  | _ :: _ :: _ => (keeps_internRefs _).bind fun _ => keeps_internNode _

theorem keeps_tupleFull (prefixes : List NodeId) (tail : Option NodeId) (minItems : UInt32) (maxItems : Option UInt32)
    (uniqueItems : Bool) (contains : Option (ContainsConstraint NodeId)) (tailAnnotates : Bool) :
    Keeps (WithinCaps n) (tupleFull prefixes tail minItems maxItems uniqueItems contains tailAnnotates) :=
  (keeps_require _ _).bind fun _ => (keeps_internRefs _).bind fun _ => keeps_internNode _

theorem keeps_objectFull (fields : List (Str × NodeId)) (required : List Bool) (closure : ObjectClosure)
    (dependent : List (Str × NodeId)) (dependentRequired : List (Str × List Str)) :
    Keeps (WithinCaps n) (objectFull fields required closure dependent dependentRequired) :=
  (keeps_internNamedFields _ _).bind fun _ => (keeps_internDependent _).bind fun _ =>
    (keeps_internDependentRequired _).bind fun _ => keeps_internNode _

theorem keeps_openObjectFull (known : List (Str × NodeId)) (knownRequired : List Bool) (patterns : List (Str × NodeId))
    (additional : AdditionalPolicy NodeId) (propertyNames : Option NodeId) (minProperties maxProperties : Option UInt32)
    (dependent : List (Str × NodeId)) (dependentRequired : List (Str × List Str)) :
    Keeps (WithinCaps n) (openObjectFull known knownRequired patterns additional propertyNames minProperties
      maxProperties
      dependent dependentRequired) :=
  (keeps_require _ _).bind fun _ => (keeps_internNamedFields _ _).bind fun _ => (keeps_internNames _).bind fun _ =>
    (keeps_internProps _).bind fun _ => (keeps_internDependent _).bind fun _ =>
      (keeps_internDependentRequired _).bind fun _ => keeps_internNode _

theorem keeps_allocDefSlot : Keeps (WithinCaps n) allocDefSlot := by
  refine .step fun s r s' hs h => ?_
  simp only [bind_eq_ok, check_ok, decide_eq_true_eq, Except.ok.injEq, Prod.mk.injEq] at h
  obtain ⟨-, -, -, hroom, -, rfl⟩ := h
  refine { hs with defs := ?_ }
  rw [List.length_append, List.length_singleton]
  exact hroom

theorem keeps_setDefTarget (slot : UInt32) (body : NodeId) : Keeps (WithinCaps n) (setDefTarget slot body) := by
  refine Keeps.get.bind fun s => Keeps.bind (.lift _) fun entry => Keeps.bind (.modify fun b hb => ?_) fun _ =>
    keeps_require _ _
  refine { hb with defs := ?_ }
  rw [List.length_set]
  exact hb.defs

/-- One more diagnostic. -/
theorem leads_unsupportedNode (keyword : Str) (reason : UnsupportedReason) (jsonPointer : Str) :
    Keeps (WithinCaps maxDiagnosticCount) (unsupportedNode keyword reason jsonPointer) := by
  intro s hs
  show WithinCaps maxDiagnosticCount (Attempt.bind (require _ _) _ s).2
  by_cases hc : s.diagnostics.length < maxDiagnosticCount ∧ s.diagnostics.length < s.options.maxDiagnostics.toNat
  · rw [Attempt.bind, require, Attempt.lift, decide_eq_true hc]
    have hmono : ∀ b, WithinCaps s.diagnostics.length b → WithinCaps maxDiagnosticCount b :=
      fun b hb => hb.mono (Nat.le_of_lt hc.1)
    refine Leads.bind (keeps_internStr keyword) hmono (fun k => ?_) s { hs with diagnostics := Nat.le_refl _ }
    refine Leads.bind (keeps_internStr jsonPointer) hmono fun p => ?_
    refine Leads.bind (keeps_internNode _) hmono fun node b hb => ?_
    refine { hb with diagnostics := ?_ }
    have := hb.diagnostics
    show (b.diagnostics ++ [_]).length ≤ _
    rw [List.length_append, List.length_singleton]
    omega
  · rw [Attempt.bind, require, Attempt.lift, decide_eq_false hc]
    exact hs

end

/-- The calls a builder takes. -/
inductive Call where
  | null
  | boolean
  | never
  | stringConst (value : Str)
  | stringPattern (regex : Str) (minLen maxLen : Option UInt32) (charset : Charset)
  | integer (minimum maximum : Option Int64)
  | integerMultipleOf (minimum maximum : Option Int64) (multipleOf : Option UInt64)
  | number
  | numberRange (minimum maximum : Option DecimalBound) (multipleOf : Option (UInt64 × UInt32))
  | integerNumberRange (minimum maximum : Option DecimalBound) (multipleOf : Option (UInt64 × UInt32))
  | lexicalNumber (regex : Str)
  | enumValues (values : List ScalarLit)
  | array (items : NodeId) (minItems : UInt32) (maxItems : Option UInt32)
  | arrayUnique (items : NodeId) (minItems : UInt32) (maxItems : Option UInt32) (uniqueItems : Bool)
  | arrayOpen (minItems : UInt32) (maxItems : Option UInt32) (uniqueItems : Bool)
  | arrayFull (items : ItemsPolicy NodeId) (minItems : UInt32) (maxItems : Option UInt32) (uniqueItems : Bool)
      (contains : Option (ContainsConstraint NodeId)) (itemsAnnotates : Bool)
  | tuple (prefixes : List NodeId) (tail : Option NodeId) (minItems : UInt32) (maxItems : Option UInt32)
  | tupleUnique (prefixes : List NodeId) (tail : Option NodeId) (minItems : UInt32) (maxItems : Option UInt32)
      (uniqueItems : Bool)
  | tupleFull (prefixes : List NodeId) (tail : Option NodeId) (minItems : UInt32) (maxItems : Option UInt32)
      (uniqueItems : Bool) (contains : Option (ContainsConstraint NodeId)) (tailAnnotates : Bool)
  | unionOf (branches : List NodeId)
  | allocDefSlot
  | setDefTarget (slot : UInt32) (body : NodeId)
  | refNode (slot : UInt32)
  | dynamicRef (initialTarget : NodeId) (anchor : AnchorId)
  | unevaluated (kind : UnevaluatedKind) (scope unevaluated : NodeId)
  | intersectionOf (branches : List NodeId)
  | exactlyOneOf (branches : List NodeId)
  | not (inner : NodeId)
  | object (fields : List (Str × NodeId)) (required : List Bool) (closure : ObjectClosure)
  | objectFull (fields : List (Str × NodeId)) (required : List Bool) (closure : ObjectClosure)
      (dependent : List (Str × NodeId)) (dependentRequired : List (Str × List Str))
  | openObject (known : List (Str × NodeId)) (knownRequired : List Bool) (patterns : List (Str × NodeId))
      (additional : AdditionalPolicy NodeId) (propertyNames : Option NodeId)
      (minProperties maxProperties : Option UInt32)
  | openObjectFull (known : List (Str × NodeId)) (knownRequired : List Bool) (patterns : List (Str × NodeId))
      (additional : AdditionalPolicy NodeId) (propertyNames : Option NodeId)
      (minProperties maxProperties : Option UInt32)
      (dependent : List (Str × NodeId)) (dependentRequired : List (Str × List Str))
  | unsupported (keyword : Str) (reason : UnsupportedReason) (jsonPointer : Str)
  | setCurrentResource (resource : ResourceId)

section
variable (env : Externals)

/-- The builder after a call, whatever the call returned. -/
def call (b : Builder) : Call → Builder
  | .null => (Builder.null b).2
  | .boolean => (Builder.boolean b).2
  | .never => (Builder.never b).2
  | .stringConst value => (Builder.stringConst value b).2
  | .stringPattern regex minLen maxLen charset => (Builder.stringPattern regex minLen maxLen charset b).2
  | .integer minimum maximum => (Builder.integer minimum maximum b).2
  | .integerMultipleOf minimum maximum multipleOf => (Builder.integerMultipleOf minimum maximum multipleOf b).2
  | .number => (Builder.number b).2
  | .numberRange minimum maximum multipleOf => (Builder.numberRange minimum maximum multipleOf b).2
  | .integerNumberRange minimum maximum multipleOf => (Builder.integerNumberRange minimum maximum multipleOf b).2
  | .lexicalNumber regex => (Builder.lexicalNumber env regex b).2
  | .enumValues values => (Builder.enumValues values b).2
  | .array items minItems maxItems => (Builder.array items minItems maxItems b).2
  | .arrayUnique items minItems maxItems uniqueItems => (Builder.arrayUnique items minItems maxItems uniqueItems b).2
  | .arrayOpen minItems maxItems uniqueItems => (Builder.arrayOpen minItems maxItems uniqueItems b).2
  | .arrayFull items minItems maxItems uniqueItems contains itemsAnnotates =>
    (Builder.arrayFull items minItems maxItems uniqueItems contains itemsAnnotates b).2
  | .tuple prefixes tail minItems maxItems => (Builder.tuple prefixes tail minItems maxItems b).2
  | .tupleUnique prefixes tail minItems maxItems uniqueItems =>
    (Builder.tupleUnique prefixes tail minItems maxItems uniqueItems b).2
  | .tupleFull prefixes tail minItems maxItems uniqueItems contains tailAnnotates =>
    (Builder.tupleFull prefixes tail minItems maxItems uniqueItems contains tailAnnotates b).2
  | .unionOf branches => (Builder.unionOf branches b).2
  | .allocDefSlot => (Builder.allocDefSlot b).2
  | .setDefTarget slot body => (Builder.setDefTarget slot body b).2
  | .refNode slot => (Builder.refNode slot b).2
  | .dynamicRef initialTarget anchor => (Builder.dynamicRef initialTarget anchor b).2
  | .unevaluated kind scope unevaluated => (Builder.unevaluated kind scope unevaluated b).2
  | .intersectionOf branches => (Builder.intersectionOf branches b).2
  | .exactlyOneOf branches => (Builder.exactlyOneOf branches b).2
  | .not inner => (Builder.not inner b).2
  | .object fields required closure => (Builder.object fields required closure b).2
  | .objectFull fields required closure dependent dependentRequired =>
    (Builder.objectFull fields required closure dependent dependentRequired b).2
  | .openObject known knownRequired patterns additional propertyNames minProperties maxProperties =>
    (Builder.openObject known knownRequired patterns additional propertyNames minProperties maxProperties b).2
  | .openObjectFull known knownRequired patterns additional propertyNames minProperties maxProperties dependent
      dependentRequired =>
    (Builder.openObjectFull known knownRequired patterns additional propertyNames minProperties maxProperties dependent
      dependentRequired b).2
  | .unsupported keyword reason jsonPointer => (Builder.unsupportedNode keyword reason jsonPointer b).2
  | .setCurrentResource resource => (Builder.setCurrentResource resource b).2

def calls (b : Builder) (cs : List Call) : Builder := cs.foldl (call env) b

end

variable {env : Externals}

/-- **One call keeps the caps.** -/
theorem withinCaps_call {b : Builder} (h : WithinCaps maxDiagnosticCount b) (c : Call) :
    WithinCaps maxDiagnosticCount (call env b c) := by
  cases c with
  | null | boolean | never | number | numberRange | integerNumberRange | refNode | dynamicRef | unevaluated | not =>
    exact keeps_internNode _ b h
  | array | arrayUnique | arrayOpen | arrayFull => exact keeps_internNode _ b h
  | stringConst value => exact (keeps_internStr value).bind (fun _ => keeps_internNode _) b h
  | stringPattern regex => exact (keeps_internStr regex).bind (fun _ => keeps_internNode _) b h
  | integer => exact (keeps_require _ _).bind (fun _ => keeps_internNode _) b h
  | integerMultipleOf => exact (keeps_require _ _).bind (fun _ => keeps_internNode _) b h
  | lexicalNumber regex =>
    exact Keeps.bind (.lift _) (fun _ => (keeps_internStr regex).bind fun _ => keeps_internNode _) b h
  | enumValues values =>
    exact (keeps_require _ _).bind (fun _ => (keeps_require _ _).bind fun _ => (keeps_internLits _).bind fun _ =>
      keeps_internNode _) b h
  | tuple | tupleUnique | tupleFull => exact keeps_tupleFull _ _ _ _ _ _ _ b h
  | unionOf branches => exact keeps_combine _ _ branches b h
  | intersectionOf branches => exact keeps_combine _ _ branches b h
  | exactlyOneOf branches => exact keeps_combine _ _ branches b h
  | allocDefSlot => exact keeps_allocDefSlot b h
  | setDefTarget slot body => exact keeps_setDefTarget slot body b h
  | object | objectFull => exact keeps_objectFull _ _ _ _ _ b h
  | openObject | openObjectFull => exact keeps_openObjectFull _ _ _ _ _ _ _ _ _ b h
  | unsupported keyword reason jsonPointer => exact leads_unsupportedNode keyword reason jsonPointer b h
  | setCurrentResource resource => exact { h with }

/-- **Every sequence of calls keeps the caps.** -/
theorem withinCaps_calls : ∀ (cs : List Call) {b : Builder}, WithinCaps maxDiagnosticCount b →
    WithinCaps maxDiagnosticCount (calls env b cs)
  | [], _, h => h
  | c :: cs, _, h => withinCaps_calls cs (withinCaps_call h c)

/-! ### Finishing -/

theorem length_assigned : ∀ {targets : List (Option NodeId)} {ids : List NodeId}, assigned targets = .ok ids →
    ids.length = targets.length
  | [], ids, h => by
    cases h
    rfl
  | target :: rest, ids, h => by
    simp only [assigned, bind_eq_ok, Except.ok.injEq] at h
    obtain ⟨id, -, ids', hrest, rfl⟩ := h
    rw [List.length_cons, List.length_cons, length_assigned hrest]

theorem keeps_internAnchors {n : Nat} (resource : ResourceId) (anchors : List AnchorRecord)
    (inputs : List (Str × NodeId)) :
    Keeps (WithinCaps n) (internAnchors resource anchors inputs) := by
  refine Keeps.bind (.lift _) fun off => Keeps.bind (.collect (fun p => ?_) inputs) fun added => ?_
  · exact (keeps_internStr _).bind fun _ => .pure _
  · exact Keeps.bind (.lift _) fun stop => Keeps.bind (.lift _) fun len => .pure _

theorem keeps_internResource {n : Nat} (acc : List ResourceRecord × List AnchorRecord) (input : ResourceInput) :
    Keeps (WithinCaps n) (internResource acc input) := by
  refine Keeps.bind (.lift _) fun resource => Keeps.bind (.optional keeps_internStr _) fun uri => ?_
  exact (keeps_internAnchors _ _ _).bind fun _ => (keeps_internAnchors _ _ _).bind fun _ => .pure _

/-- **A finished arena is within the decoder's caps.** -/
theorem capped_finishWithResources {b : Builder} (hb : WithinCaps maxDiagnosticCount b) {root : NodeId}
    {retrievalUri : Option Str} {inputs : List ResourceInput} {ir : SchemaIR env}
    (h : finishWithResources env b root retrievalUri inputs = .ok ir) : Capped ir.wire := by
  rw [finishWithResources] at h
  have hkeeps : Keeps (WithinCaps maxDiagnosticCount) (do
      let uri ← Attempt.optional internStr retrievalUri
      let acc ← Attempt.loop internResource ([], []) inputs
      pure (uri, acc) : Build (Option StrRef × List ResourceRecord × List AnchorRecord)) :=
    Keeps.bind (.optional keeps_internStr _) fun uri => Keeps.bind (.loop keeps_internResource _ _) fun _ => .pure _
  have hs := hkeeps b hb
  split at h
  · cases h
  · rename_i uri resources anchors s he
    rw [he] at hs
    simp only [bind_eq_ok] at h
    obtain ⟨defTargets, hdefs, h⟩ := h
    have hv := validate_ok ir.valid
    rw [assemble_ok env _ h] at hv ⊢
    exact {
      nodes := hs.nodes
      strings := hs.strings
      literals := hs.literals
      props := hs.props
      pairs := hs.pairs
      bits := hs.bits
      refs := hs.refs
      defs := (length_assigned hdefs).trans_le hs.defs
      resources := hv.resourceCap
      anchors := hv.anchorCap
      owners := hs.owners.trans_le hs.nodes
      diagnostics := hs.diagnostics
      content := hs.counted ▸ hs.content }

/-- Whatever the calls before it, `finish` gives an arena within the caps. -/
theorem capped_calls {options : CompileOptions} {cs : List Call} {root : NodeId} {retrievalUri : Option Str}
    {inputs : List ResourceInput} {ir : SchemaIR env}
    (h : finishWithResources env (calls env (new options) cs) root retrievalUri inputs = .ok ir) : Capped ir.wire :=
  capped_finishWithResources (withinCaps_calls cs ((withinCaps_new options).mono (Nat.zero_le _))) h

end Builder

/-! ### The round trip -/

section
variable {bincode : Bincode} {blake3 : List Byte → Digest} {env : Externals}

theorem header_inj {version : UInt16} {n m : Nat} (hn : n < 2 ^ 32) (hm : m < 2 ^ 32)
    (h : header version n = header version m) : n = m := by
  have henc : Codec.u32.enc (UInt32.ofNat n) = Codec.u32.enc (UInt32.ofNat m) := List.append_cancel_left h
  have hword : UInt32.ofNat n = UInt32.ofNat m :=
    (Codec.u32.cancel (Codec.total_u32 _) (Codec.total_u32 _) (congrArg (· ++ []) henc)).1
  rw [← UInt32.toNat_ofNat_of_lt' hn, hword, UInt32.toNat_ofNat_of_lt' hm]

/-- The length of an accepted envelope, and the header that belongs to it. -/
theorem unframe_length {bytes payload : List Byte} (h : unframe blake3 bytes = .ok payload) :
    bytes.length = payload.length + minEnvelope ∧ bytes.take headerLen = header irVersion payload.length ∧
      payload.length < 2 ^ 32 := by
  obtain ⟨hle, hbytes⟩ := unframe_ok h
  refine ⟨?_, ?_, Nat.lt_of_le_of_lt hle (by decide +kernel)⟩
  · rw [hbytes]
    simp only [List.length_append, length_header, Vector.length_toList, minEnvelope, headerLen, checksumLen]
    omega
  · rw [hbytes, List.append_assoc, List.take_left' (length_header _ _)]

/-- A header changed without the length, or a length without the header, is refused. -/
theorem fromWire_mismatch {bytes bytes' : List Byte} {ir : SchemaIR env}
    (h : fromWire bincode blake3 env bytes = .ok ir)
    (hbad : ¬(bytes'.take headerLen = bytes.take headerLen ↔ bytes'.length = bytes.length)) :
    ∃ e, fromWire bincode blake3 env bytes' = .error e := by
  cases h' : fromWire bincode blake3 env bytes' with
  | error e => exact ⟨e, rfl⟩
  | ok ir' =>
    obtain ⟨hlen, hhead, hlt⟩ := unframe_length (fromWire_ok h).1
    obtain ⟨hlen', hhead', hlt'⟩ := unframe_length (fromWire_ok h').1
    refine absurd ?_ hbad
    rw [hhead, hhead', hlen, hlen', Nat.add_right_cancel_iff]
    exact ⟨header_inj hlt' hlt, fun he => congrArg _ he⟩

/-- **The envelope's round trips.**  What any calls finish comes back equal from its envelope; an accepted envelope is
the one its arena is written to; and no envelope with another header for its length, or another length for its header,
is accepted. -/
theorem wire_round_trip (blake3 : List Byte → Digest) (env : Externals) (hb : bincode.FixedInt) :
    (∀ options cs root retrievalUri inputs ir,
      Builder.finishWithResources env (Builder.calls env (.new options) cs) root retrievalUri inputs = .ok ir →
        ∃ bytes, toWire bincode blake3 env ir = some bytes ∧ fromWire bincode blake3 env bytes = .ok ir) ∧
      (∀ bytes ir, fromWire bincode blake3 env bytes = .ok ir → toWire bincode blake3 env ir = some bytes) ∧
        ∀ bytes ir bytes', fromWire bincode blake3 env bytes = .ok ir →
          ¬(bytes'.take headerLen = bytes.take headerLen ↔ bytes'.length = bytes.length) →
            ∃ e, fromWire bincode blake3 env bytes' = .error e := by
  refine ⟨fun options cs root retrievalUri inputs ir h => ?_, fun bytes ir h => ?_, fun bytes ir bytes' h hbad => ?_⟩
  · exact fromWire_toWire blake3 hb ir (Builder.capped_calls h)
  · exact toWire_fromWire hb h
  · exact fromWire_mismatch h hbad

/-- The array is built in two calls. -/
theorem listIR_built : Builder.finishWithResources listExternals (Builder.calls listExternals
    (.new ⟨.assumeClosedProfile, false, .rejectAtCompile, 64⟩)
    [.stringConst ⟨[0x61], rfl⟩, .arrayFull .allowAny 0 none false (some ⟨.schema 0, 1, none⟩) true])
    1 none [⟨some listUri, 1, [(⟨[0x6e], rfl⟩, 1)], []⟩] = .ok listIR := by
  have hwire : (Builder.finishWithResources listExternals (Builder.calls listExternals
      (.new ⟨.assumeClosedProfile, false, .rejectAtCompile, 64⟩)
      [.stringConst ⟨[0x61], rfl⟩, .arrayFull .allowAny 0 none false (some ⟨.schema 0, 1, none⟩) true])
      1 none [⟨some listUri, 1, [(⟨[0x6e], rfl⟩, 1)], []⟩]).toOption.map SchemaIR.wire = some listArena := by
    decide +kernel
  generalize Builder.finishWithResources _ _ _ _ _ = built at hwire
  cases built with
  | error e => cases hwire
  | ok ir =>
    obtain ⟨wire, valid⟩ := ir
    cases hwire
    rfl

/-- An array and what it contains, built, written and read back; with one byte more the envelope is refused. -/
theorem wire_round_trip_list : ∃ bytes, toWire fixedInt (fun _ => listChecksum) listExternals listIR = some bytes ∧
    fromWire fixedInt (fun _ => listChecksum) listExternals bytes = .ok listIR ∧
      ∃ e, fromWire fixedInt (fun _ => listChecksum) listExternals (bytes ++ [0]) = .error e := by
  obtain ⟨hback, -, hrefused⟩ := wire_round_trip (fun _ => listChecksum) listExternals fixedInt_fixedInt
  obtain ⟨bytes, hwrite, hread⟩ := hback _ _ _ _ _ _ listIR_built
  refine ⟨bytes, hwrite, hread, hrefused bytes listIR _ hread fun hiff => ?_⟩
  have hlong : headerLen ≤ bytes.length := by
    rw [(unframe_length (fromWire_ok hread).1).1]
    exact (Nat.le_add_right _ _).trans (Nat.le_add_left _ _)
  have hlen := hiff.1 (List.take_append_of_le_length hlong)
  rw [List.length_append] at hlen
  exact absurd hlen (Nat.succ_ne_self _)

end

end Ir
end MaskForge
