import MaskForge.Automaton.Import
import MaskForge.Automaton.Product
import MaskForge.Ir.Routing
import MaskForge.Structured.Cycles
import MaskForge.Structured.StringFrame
/-!
# StringIntersection — an intersection of string schemas as one string node

An intersection whose branches are patterns, negated patterns and negated constants is compiled to a single string
node: the bounds of the branches are merged, the engines of their patterns multiplied and those of the negated ones
taken away. A pattern that is not a user pattern is passed over, whichever sign it has.  The regex library is a
parameter: the dense DFA it builds for a source, and what a source means.
-/
namespace MaskForge

open Ir (SchemaIRWire Node NodeId StrRef RefSlice Charset jsonStringBody jsonStringCodepoint isUserPattern ascii)

/-! ### The branches -/

inductive StringIntersectionBranch where
  | pattern (regex : StrRef) (minLen maxLen : Option UInt32) (charset : Charset) (negative : Bool)
  | negativeConst (value : StrRef)

/-- `string_intersection_branch`. -/
def stringIntersectionBranch (w : SchemaIRWire) (branch : NodeId) : Option StringIntersectionBranch :=
  match w.node branch with
  | some (.stringPattern regex minLen maxLen charset) => some (.pattern regex minLen maxLen charset false)
  | some (.not inner) => match w.node inner with
    | some (.stringPattern regex none none charset) => some (.pattern regex none none charset true)
    | some (.stringConst value) => some (.negativeConst value)
    | _ => none
  | _ => none

def maxProductPatterns : Nat := 9
def maxProductSourceBytes : Nat := 2048

/-- What `fast_string_intersection` has counted so far. -/
structure IntersectionCount where
  userPatterns : Nat
  sourceBytes : Nat
  hasNegative : Bool

/-- One turn of its loop; `none` returns false. -/
def IntersectionCount.add (w : SchemaIRWire) (n : IntersectionCount) (branch : NodeId) : Option IntersectionCount :=
  (stringIntersectionBranch w branch).bind fun
    | .pattern regex minLen maxLen charset negative =>
      if isUserPattern w (.stringPattern regex minLen maxLen charset) then
        (w.strAt regex).bind (fun source =>
          (JsonStringDecoder.checkedUsize (n.sourceBytes + source.bytes.length)).bind (fun total =>
          if maxProductPatterns < n.userPatterns + 1 ∨ maxProductSourceBytes < total then none
          else some ⟨n.userPatterns + 1, total, n.hasNegative || negative⟩))
      else some { n with hasNegative := n.hasNegative || negative }
    | .negativeConst value => (w.strAt value).bind (fun value =>
        (JsonStringDecoder.checkedUsize (n.sourceBytes + min (value.bytes.length * 10) usizeMax)).map (fun total =>
          { n with sourceBytes := total, hasNegative := true }))

/-- `fast_string_intersection`. -/
def fastStringIntersection (w : SchemaIRWire) (branchIds : List NodeId) : Bool :=
  match branchIds.foldlM (IntersectionCount.add w) ⟨0, 0, false⟩ with
  | none => false
  | some n => n.hasNegative || (decide (n.userPatterns ≤ 2) && decide (n.sourceBytes ≤ 128))

/-! ### The patterns -/

/-- `decoded_literal_pattern`: every character by its code. -/
def decodedLiteralPattern (text : Text) : List Byte :=
  text.flatMap (fun c => ascii "\\x\x7b" ++ (Nat.toDigits 16 c.toNat).map (fun digit => UInt8.ofNat digit.toNat) ++
    ascii "\x7d")

def anyScalars : List Byte := ascii "(?s:.)*"

def PlanCompileFailure.of (e : CompileError) : PlanCompileFailure := { toCompileError := e }

def unsupportedPlan (what : String) : PlanCompileFailure :=
  { code := .unsupported, stage := .l3, message := "construct not yet supported by the incremental structured engine",
    keyword := some what }

section
variable {σ : Type} [DecidableEq σ] (dense : List Byte → Except CompileError (DenseDfa σ)) (w : SchemaIRWire)

/-- `build_from_unicode_regex`: the library's DFA, materialized. -/
def buildFromUnicodeRegex (source : List Byte) : Except PlanCompileFailure RefEngine :=
  (dense source >>= fun d => d.bfsMaterialize).mapError .of

/-- `combine_pattern_engines`. -/
def combinePatternEngines (engines : List RefEngine) (c : Combinator) : Except PlanCompileFailure (Option RefEngine) :=
  if engines.length < 2 then .ok engines.getLast?
  else ((ProductAutomaton.buildReachable engines c >>= fun p => p.intoEngine).mapError .of).map some

/-- What `build_intersection_pattern` has gathered so far. -/
structure IntersectionParts where
  minScalars : Nat
  maxScalars : Option Nat
  positiveEngines : List RefEngine
  negativeEngines : List RefEngine

/-- The bounds of a positive pattern. -/
def IntersectionParts.bound (parts : IntersectionParts) (minLen maxLen : Option UInt32) : IntersectionParts :=
  { parts with
    minScalars := max parts.minScalars ((minLen.map UInt32.toNat).getD 0)
    maxScalars := match maxLen with
      | none => parts.maxScalars
      | some maxLen => some ((parts.maxScalars.map (min · maxLen.toNat)).getD maxLen.toNat) }

/-- One turn of its loop. -/
def IntersectionParts.add (parts : IntersectionParts) (branch : NodeId) : Except PlanCompileFailure IntersectionParts :=
  match stringIntersectionBranch w branch with
  | none => .error (unsupportedPlan "non-string intersection branch")
  | some (.pattern regex minLen maxLen charset negative) =>
    let parts := if negative then parts else parts.bound minLen maxLen
    if isUserPattern w (.stringPattern regex minLen maxLen charset) then
      match w.strAt regex with
      | none => .error (invalidIr "string pattern string reference")
      | some source => (buildFromUnicodeRegex dense source.bytes).map (fun engine =>
        if negative then { parts with negativeEngines := parts.negativeEngines ++ [engine] }
        else { parts with positiveEngines := parts.positiveEngines ++ [engine] })
    else .ok parts
  | some (.negativeConst value) => match (w.strAt value).bind (fun literal => strFromUtf8 literal.bytes) with
    | none => .error (invalidIr "negative string const literal")
    | some literal => (buildFromUnicodeRegex dense (decodedLiteralPattern literal)).map (fun engine =>
      { parts with negativeEngines := parts.negativeEngines ++ [engine] })

/-- What the negated engines are taken from. -/
def baseEngine (accepted : Option RefEngine) : Except PlanCompileFailure RefEngine :=
  match accepted with
  | none => buildFromUnicodeRegex dense anyScalars
  | some accepted => .ok accepted

/-- The engine of the parts. -/
def IntersectionParts.engine (parts : IntersectionParts) : Except PlanCompileFailure (Option RefEngine) := do
  let accepted ← combinePatternEngines parts.positiveEngines .all
  if parts.negativeEngines.isEmpty then return accepted
  else
    let accepted ← baseEngine dense accepted
    combinePatternEngines (accepted :: parts.negativeEngines) .difference

/-- `build_intersection_pattern`. -/
def buildIntersectionPattern (branchIds : List NodeId) : Except PlanCompileFailure StringPlan := do
  let parts ← branchIds.foldlM (IntersectionParts.add dense w) ⟨0, none, [], []⟩
  let pattern ← parts.engine dense
  return ⟨parts.minScalars, parts.maxScalars, pattern⟩

/-- `build_combinator_plan` of an `allOf`. -/
def buildAllPlan (branches : Option (List NodeId)) : Except PlanCompileFailure NodePlan :=
  match branches with
  | none => .error (invalidIr "combinator branch slice")
  | some source =>
    if source.any (fun branch => (w.node branch).isNone) then .error (invalidIr "combinator branch node")
    else .ok (.combinator ⟨.all, source.map UInt32.toNat⟩)

/-- An intersection node: one string node where the fast path takes it, unless the product gets too large. -/
def buildIntersectionNode (branches : RefSlice) : Except PlanCompileFailure NodePlan :=
  if (w.refsAt branches).any (fastStringIntersection w) then
    match buildIntersectionPattern dense w ((w.refsAt branches).getD []) with
    | .ok plan => .ok (.string plan)
    | .error error =>
      if error.code = .internalLimitExceeded ∧ error.message = "product cap"
        then buildAllPlan w ((w.refsAt branches).getD [])
      else .error error
  else buildAllPlan w (w.refsAt branches)

end

/-! ### What the branches ask -/

/-- What the sources of patterns mean: `decoded` matches the decoded characters, `spelled` some spelling of them. -/
structure RegexMeaning where
  decoded : List Byte → Text → Prop
  spelled : List Byte → Text → Prop

/-- What is relied on of the library: the DFA of a source accepts what the source matches.  Of three sources it is said
what that is, and of the code point pattern. -/
structure RegexMeaning.Sound {σ : Type} (r : RegexMeaning) (dense : List Byte → Except CompileError (DenseDfa σ)) :
    Prop where
  lawful : ∀ source d, dense source = .ok d → d.Lawful
  compiled : ∀ source d, dense source = .ok d → ∀ s, d.accepts (textBytes s) = true ↔ r.decoded source s
  literal : ∀ v d, dense (decodedLiteralPattern v) = .ok d → ∀ s, r.decoded (decodedLiteralPattern v) s ↔ s = v
  anyScalars : ∀ s, r.decoded anyScalars s
  body : ∀ s, r.spelled jsonStringBody s
  codepoint : ∀ c, r.spelled jsonStringCodepoint [c]

section
variable (r : RegexMeaning) (w : SchemaIRWire)

/-- A pattern matches a string by its regex: over the decoded characters, or, for the body of an unconstrained string,
over their spelling; the other charsets give the regex of one code point. -/
def regexMatches (regex : StrRef) (charset : Charset) (s : Text) : Prop :=
  ∃ source, w.strAt regex = some source ∧ match charset with
    | .utf8Any => if source.bytes = jsonStringBody then r.spelled source.bytes s else r.decoded source.bytes s
    | .asciiPrintableNoQuoteBackslash | .utf8CountedCodepoints => ∀ c ∈ s, r.spelled source.bytes [c]

def withinLengths (minLen maxLen : Option UInt32) (s : Text) : Prop :=
  (minLen.map UInt32.toNat).getD 0 ≤ s.length ∧ ∀ maximum ∈ maxLen, s.length ≤ maximum.toNat

/-- A string node accepts a string. -/
def stringNodeAccepts (node : Node) (s : Text) : Prop :=
  match node with
  | .stringPattern regex minLen maxLen charset => regexMatches r w regex charset s ∧ withinLengths minLen maxLen s
  | .stringConst value => ∃ v, w.strAt value = some v ∧ textBytes s = v.bytes
  | _ => False

/-- A branch accepts a string: as its node does, or where the node it negates does not. -/
def branchAccepts (branch : NodeId) (s : Text) : Prop :=
  match w.node branch with
  | some (.not inner) => ∃ node, w.node inner = some node ∧ ¬stringNodeAccepts r w node s
  | some node => stringNodeAccepts r w node s
  | none => False

/-- A branch whose pattern is no user pattern. -/
def passedOver (branch : NodeId) : Bool :=
  match stringIntersectionBranch w branch with
  | some (.pattern regex minLen maxLen charset _) => !isUserPattern w (.stringPattern regex minLen maxLen charset)
  | _ => false

/-- The lengths a positive branch gives. -/
def boundsAdmit (branch : NodeId) (s : Text) : Prop :=
  match w.node branch with
  | some (.stringPattern _ minLen maxLen _) => withinLengths minLen maxLen s
  | _ => True

/-- What is left of a branch whose pattern is passed over: its lengths. -/
def keptAccepts (branch : NodeId) (s : Text) : Prop :=
  boundsAdmit w branch s ∧ (passedOver w branch = false → branchAccepts r w branch s)

/-- The lengths and the branches that are not passed over admit a string. -/
def Left (branchIds : List NodeId) (s : Text) : Prop :=
  s.length ≤ u32Max ∧ ∀ branch ∈ branchIds, keptAccepts r w branch s

/-- The patterns that match every string: the body of an unconstrained one, the code point of a counted one. -/
def builtIn (regex : StrRef) (charset : Charset) : Bool :=
  match charset with
  | .utf8Any => (w.strAt regex).any fun source => source.bytes == jsonStringBody
  | .utf8CountedCodepoints => (w.strAt regex).any fun source => source.bytes == jsonStringCodepoint
  | .asciiPrintableNoQuoteBackslash => false

/-- The source of a pattern of one character matches every character of a string. -/
def everyCharacter (regex : StrRef) (s : Text) : Prop :=
  ∃ source, w.strAt regex = some source ∧ ∀ c ∈ s, r.spelled source.bytes [c]

/-- **Passing a branch over does no harm**: it is compiled, or it is a built-in pattern, or a negated one where the
other branches admit nothing; a pattern of one character that is not built in must match every character of all that is
left, and if it is negated, not every character. -/
def Harmless (branchIds : List NodeId) (branch : NodeId) : Prop :=
  match w.node branch with
  | some (.stringPattern regex minLen maxLen charset) =>
    isUserPattern w (.stringPattern regex minLen maxLen charset) = true ∨ builtIn w regex charset = true ∨
      ∀ s, Left r w branchIds s → everyCharacter r w regex s
  | some (.not inner) => match w.node inner with
    | some (.stringPattern regex none none charset) =>
      isUserPattern w (.stringPattern regex none none charset) = true ∨
        if builtIn w regex charset then ∀ s, ¬Left r w branchIds s
        else ∀ s, Left r w branchIds s → ¬everyCharacter r w regex s
    | _ => True
  | _ => True

end

/-! ### The engines -/

section
variable {σ : Type} [DecidableEq σ] {dense : List Byte → Except CompileError (DenseDfa σ)} {w : SchemaIRWire}
  {r : RegexMeaning} {branch : NodeId} {s : Text}

theorem mapError_ok {ε ε' α : Type} {f : ε → ε'} {x : Except ε α} {a : α} (h : x.mapError f = .ok a) : x = .ok a := by
  cases x with
  | error e => cases h
  | ok b => cases h; rfl

theorem map_ok {ε α β : Type} {f : α → β} {x : Except ε α} {b : β} (h : x.map f = .ok b) :
    ∃ a, x = .ok a ∧ f a = b := by
  cases x with
  | error e => cases h
  | ok a => cases h; exact ⟨a, rfl, rfl⟩

/-- **A compiled pattern accepts what its source matches.** -/
theorem buildFromUnicodeRegex_ok (hr : r.Sound dense) {source : List Byte} {e : RefEngine}
    (h : buildFromUnicodeRegex dense source = .ok e) (s : Text) :
    e.accepts (textBytes s) = true ↔ r.decoded source s := by
  obtain ⟨d, hd, he⟩ := bind_ok (mapError_ok h)
  rw [(DenseDfa.bfsMaterialize_exact (hr.lawful source d hd) he).1]
  exact hr.compiled source d hd s

/-- The engine of a negated constant accepts the constant alone. -/
theorem build_literal_ok (hr : r.Sound dense) {v : Text} {e : RefEngine}
    (h : buildFromUnicodeRegex dense (decodedLiteralPattern v) = .ok e) (s : Text) :
    e.accepts (textBytes s) = true ↔ s = v := by
  obtain ⟨d, hd, -⟩ := bind_ok (mapError_ok h)
  rw [buildFromUnicodeRegex_ok hr h, hr.literal v d hd]

/-- Engines that all must accept. -/
theorem combine_all_ok {engines : List RefEngine} {accepted : Option RefEngine}
    (h : combinePatternEngines engines .all = .ok accepted) (u : List Byte) :
    (∀ e ∈ accepted, e.accepts u = true) ↔ ∀ e ∈ engines, e.accepts u = true := by
  unfold combinePatternEngines at h
  split at h
  · rename_i hfew
    cases h
    match engines, hfew with
    | [], _ => simp
    | [e], _ => simp
  · obtain ⟨e, he, rfl⟩ := map_ok h
    obtain ⟨p, hp, he⟩ := bind_ok (mapError_ok he)
    simp only [Option.mem_def, Option.some.injEq, forall_eq']
    exact (ProductAutomaton.product_exact engines .all p e (.inr hp) he).1 u

/-- An engine less others. -/
theorem combine_difference_ok {base : RefEngine} {engines : List RefEngine} (hne : engines ≠ [])
    {pattern : Option RefEngine}
    (h : combinePatternEngines (base :: engines) .difference = .ok pattern) (u : List Byte) :
    (∀ e ∈ pattern, e.accepts u = true) ↔ base.accepts u = true ∧ ∀ e ∈ engines, e.accepts u = false := by
  unfold combinePatternEngines at h
  have hpos := List.length_pos_iff.2 hne
  rw [if_neg (by rw [List.length_cons]; omega)] at h
  obtain ⟨e, he, rfl⟩ := map_ok h
  obtain ⟨p, hp, he⟩ := bind_ok (mapError_ok he)
  simp only [Option.mem_def, Option.some.injEq, forall_eq']
  rw [(ProductAutomaton.product_exact (base :: engines) .difference p e (.inr hp) he).1 u, Combinator.Accepts]
  constructor
  · rintro ⟨_, _, heq, hbase, hrest⟩
    cases heq
    exact ⟨hbase, hrest⟩
  · rintro ⟨hbase, hrest⟩
    exact ⟨base, engines, rfl, hbase, hrest⟩

/-- What the parts ask of a string. -/
def IntersectionParts.Admits (parts : IntersectionParts) (s : Text) : Prop :=
  (parts.minScalars ≤ s.length ∧ ∀ maximum ∈ parts.maxScalars, s.length ≤ maximum) ∧
    (∀ e ∈ parts.positiveEngines, e.accepts (textBytes s) = true) ∧
      ∀ e ∈ parts.negativeEngines, e.accepts (textBytes s) = false

/-- **The engine of the parts asks what the engines do.** -/
theorem IntersectionParts.engine_ok (hr : r.Sound dense) {parts : IntersectionParts} {pattern : Option RefEngine}
    (h : parts.engine dense = .ok pattern) (s : Text) : (∀ e ∈ pattern, e.accepts (textBytes s) = true) ↔
      (∀ e ∈ parts.positiveEngines, e.accepts (textBytes s) = true) ∧
        ∀ e ∈ parts.negativeEngines, e.accepts (textBytes s) = false := by
  obtain ⟨accepted, hall, h⟩ := bind_ok h
  have hpositive := combine_all_ok hall (textBytes s)
  split at h
  · rename_i hnone
    cases h
    rw [hpositive, List.isEmpty_iff.1 hnone]
    simp
  · rename_i hsome
    obtain ⟨base, hbase, h⟩ := bind_ok h
    rw [combine_difference_ok (by simpa using hsome) h, ← hpositive]
    refine and_congr_left fun _ => ?_
    cases accepted with
    | none =>
      have haccepts := (buildFromUnicodeRegex_ok hr hbase s).2 (hr.anyScalars s)
      simp [haccepts]
    | some e =>
      cases hbase
      simp

/-! ### One branch -/

/-- What kind of branch it is says which nodes it is made of. -/
theorem stringIntersectionBranch_some {b : StringIntersectionBranch} (h : stringIntersectionBranch w branch = some b) :
    match b with
      | .pattern regex minLen maxLen charset false => w.node branch = some (.stringPattern regex minLen maxLen charset)
      | .pattern regex minLen maxLen charset true => minLen = none ∧ maxLen = none ∧
          ∃ inner, w.node branch = some (.not inner) ∧ w.node inner = some (.stringPattern regex none none charset)
      | .negativeConst value => ∃ inner, w.node branch = some (.not inner) ∧
          w.node inner = some (.stringConst value) := by
  unfold stringIntersectionBranch at h
  split at h
  · rename_i hnode
    cases h
    exact hnode
  · rename_i inner hnode
    split at h
    · rename_i hinner
      cases h
      exact ⟨rfl, rfl, inner, hnode, hinner⟩
    · rename_i hinner
      cases h
      exact ⟨inner, hnode, hinner⟩
    · cases h
  · cases h

/-- A user pattern is matched over the decoded characters. -/
theorem regexMatches_user {regex : StrRef} {minLen maxLen : Option UInt32} {charset : Charset} {source : Ir.Str}
    (huser : isUserPattern w (.stringPattern regex minLen maxLen charset) = true)
    (hsource : w.strAt regex = some source) :
    regexMatches r w regex charset s ↔ r.decoded source.bytes s := by
  unfold regexMatches
  simp only [hsource, Option.some.injEq, exists_eq_left']
  cases charset with
  | utf8Any =>
    have hbody : source.bytes ≠ jsonStringBody := by simpa [isUserPattern, hsource] using huser
    exact (if_neg hbody).to_iff
  | asciiPrintableNoQuoteBackslash => cases huser
  | utf8CountedCodepoints => cases huser

theorem IntersectionParts.bound_admits (parts : IntersectionParts) (minLen maxLen : Option UInt32) (s : Text) :
    (parts.bound minLen maxLen).Admits s ↔ parts.Admits s ∧ withinLengths minLen maxLen s := by
  unfold Admits bound withinLengths
  obtain ⟨least, most, positive, negative⟩ := parts
  cases maxLen with
  | none => simp; tauto
  | some maximum => cases most <;> simp <;> tauto

theorem IntersectionParts.positive_admits (parts : IntersectionParts) (e : RefEngine) (s : Text) :
    IntersectionParts.Admits { parts with positiveEngines := parts.positiveEngines ++ [e] } s ↔
      parts.Admits s ∧ e.accepts (textBytes s) = true := by
  unfold Admits
  simp only [List.forall_mem_append, List.forall_mem_singleton]
  exact ⟨fun ⟨hb, ⟨hp, he⟩, hn⟩ => ⟨⟨hb, hp, hn⟩, he⟩, fun ⟨⟨hb, hp, hn⟩, he⟩ => ⟨hb, ⟨hp, he⟩, hn⟩⟩

theorem IntersectionParts.negative_admits (parts : IntersectionParts) (e : RefEngine) (s : Text) :
    IntersectionParts.Admits { parts with negativeEngines := parts.negativeEngines ++ [e] } s ↔
      parts.Admits s ∧ ¬e.accepts (textBytes s) = true := by
  unfold Admits
  simp only [List.forall_mem_append, List.forall_mem_singleton, Bool.not_eq_true]
  exact ⟨fun ⟨hb, hp, hn, he⟩ => ⟨⟨hb, hp, hn⟩, he⟩, fun ⟨⟨hb, hp, hn⟩, he⟩ => ⟨hb, hp, hn, he⟩⟩

/-- What is kept of a positive pattern. -/
theorem keptAccepts_positive {regex : StrRef} {minLen maxLen : Option UInt32} {charset : Charset}
    (hbranch : stringIntersectionBranch w branch = some (.pattern regex minLen maxLen charset false)) :
    keptAccepts r w branch s ↔ withinLengths minLen maxLen s ∧
      (isUserPattern w (.stringPattern regex minLen maxLen charset) = true → regexMatches r w regex charset s) := by
  have hnode : w.node branch = some (.stringPattern regex minLen maxLen charset) :=
    stringIntersectionBranch_some hbranch
  unfold keptAccepts boundsAdmit passedOver branchAccepts
  rw [hbranch, hnode]
  dsimp only [stringNodeAccepts]
  rw [Bool.not_eq_false']
  exact ⟨fun h => ⟨h.1, fun hu => (h.2 hu).1⟩, fun h => ⟨h.1, fun hu => ⟨h.2 hu, h.1⟩⟩⟩

/-- What is kept of a negated one. -/
theorem keptAccepts_negative {regex : StrRef} {minLen maxLen : Option UInt32} {charset : Charset}
    (hbranch : stringIntersectionBranch w branch = some (.pattern regex minLen maxLen charset true)) :
    keptAccepts r w branch s ↔
      (isUserPattern w (.stringPattern regex minLen maxLen charset) = true → ¬regexMatches r w regex charset s) := by
  obtain ⟨rfl, rfl, inner, hnot, hinner⟩ := stringIntersectionBranch_some hbranch
  unfold keptAccepts boundsAdmit passedOver branchAccepts
  rw [hbranch, hnot]
  simp [hinner, stringNodeAccepts, withinLengths]

/-- What is kept of a negated constant is all of it. -/
theorem keptAccepts_const {value : StrRef} {v : Ir.Str} (hv : w.strAt value = some v)
    (hbranch : stringIntersectionBranch w branch = some (.negativeConst value)) :
    keptAccepts r w branch s ↔ ¬textBytes s = v.bytes := by
  obtain ⟨inner, hnot, hinner⟩ := stringIntersectionBranch_some hbranch
  unfold keptAccepts boundsAdmit passedOver branchAccepts
  rw [hbranch, hnot]
  simp [hinner, stringNodeAccepts, hv]

/-- **A branch adds what is kept of it.** -/
theorem IntersectionParts.add_ok (hr : r.Sound dense) {parts parts' : IntersectionParts}
    (h : parts.add dense w branch = .ok parts') (s : Text) :
    parts'.Admits s ↔ parts.Admits s ∧ keptAccepts r w branch s := by
  unfold add at h
  split at h
  · cases h
  · rename_i regex minLen maxLen charset negative hbranch
    dsimp only at h
    by_cases huser : isUserPattern w (.stringPattern regex minLen maxLen charset) = true
    · rw [if_pos huser] at h
      split at h
      · cases h
      · rename_i source hsource
        obtain ⟨e, he, hparts⟩ := map_ok h
        have hmatch : e.accepts (textBytes s) = true ↔ regexMatches r w regex charset s :=
          (buildFromUnicodeRegex_ok hr he s).trans (regexMatches_user huser hsource).symm
        cases negative with
        | false =>
          rw [← hparts, keptAccepts_positive hbranch, if_neg Bool.false_ne_true]
          rw [IntersectionParts.positive_admits, hmatch, if_neg Bool.false_ne_true, bound_admits, imp_iff_right huser,
            and_assoc]
        | true =>
          rw [← hparts, keptAccepts_negative hbranch, if_pos rfl]
          rw [IntersectionParts.negative_admits, hmatch, if_pos rfl, imp_iff_right huser]
    · rw [if_neg huser] at h
      cases h
      cases negative with
      | false =>
        rw [keptAccepts_positive hbranch, if_neg Bool.false_ne_true, bound_admits]
        simp [huser]
      | true =>
        rw [keptAccepts_negative hbranch, if_pos rfl]
        simp [huser]
  · rename_i value hbranch
    split at h
    · cases h
    · rename_i literal hliteral
      obtain ⟨v, hv, hchars⟩ := Option.bind_eq_some_iff.1 hliteral
      obtain ⟨e, he, rfl⟩ := map_ok h
      have hbytes : textBytes s = v.bytes ↔ s = literal := by
        rw [(strFromUtf8_iff v.bytes literal).1 hchars]
        exact ⟨textBytes_inj, fun heq => heq ▸ rfl⟩
      rw [IntersectionParts.negative_admits, build_literal_ok hr he, keptAccepts_const hv hbranch, hbytes]

theorem foldlM_add_ok (hr : r.Sound dense) (s : Text) : ∀ {branchIds : List NodeId} {parts parts' : IntersectionParts},
    branchIds.foldlM (IntersectionParts.add dense w) parts = .ok parts' →
      (parts'.Admits s ↔ parts.Admits s ∧ ∀ branch ∈ branchIds, keptAccepts r w branch s)
  | [], parts, parts', h => by
    cases h
    simp
  | branch :: branchIds, parts, parts', h => by
    rw [List.foldlM_cons] at h
    obtain ⟨parts₁, hadd, h⟩ := bind_ok h
    rw [foldlM_add_ok hr s h, IntersectionParts.add_ok hr hadd s]
    simp [and_assoc]

/-- **The plan asks what is kept of the branches.** -/
theorem buildIntersectionPattern_ok (hr : r.Sound dense) {branchIds : List NodeId} {plan : StringPlan}
    (h : buildIntersectionPattern dense w branchIds = .ok plan) (s : Text) :
    plan.Admits s ↔ ∀ branch ∈ branchIds, keptAccepts r w branch s := by
  obtain ⟨parts, hparts, h⟩ := bind_ok h
  obtain ⟨pattern, hpattern, h⟩ := bind_ok h
  cases h
  have hengine := IntersectionParts.engine_ok hr hpattern s
  have hfold := foldlM_add_ok hr s hparts
  have hnone : IntersectionParts.Admits ⟨0, none, [], []⟩ s := by simp [IntersectionParts.Admits]
  rw [and_iff_right hnone] at hfold
  rw [← hfold, StringPlan.Admits, IntersectionParts.Admits, hengine, and_assoc]

/-- What a branch accepts, what is kept of it accepts. -/
theorem keptAccepts_of_accepts (h : branchAccepts r w branch s) : keptAccepts r w branch s := by
  refine ⟨?_, fun _ => h⟩
  unfold branchAccepts at h
  unfold boundsAdmit
  split
  · rename_i hnode
    rw [hnode] at h
    exact h.2
  · trivial

/-! ### The branches passed over -/

omit [DecidableEq σ] in
theorem regexMatches_builtIn (hr : r.Sound dense) {regex : StrRef} {charset : Charset}
    (h : builtIn w regex charset = true) (s : Text) : regexMatches r w regex charset s := by
  unfold builtIn at h
  cases charset with
  | utf8Any =>
    obtain ⟨source, hsource, hbody⟩ := (Option.any_eq_true _ _).1 h
    have hbody : source.bytes = jsonStringBody := by simpa using hbody
    refine ⟨source, hsource, ?_⟩
    dsimp only
    rw [if_pos hbody, hbody]
    exact hr.body s
  | asciiPrintableNoQuoteBackslash => cases h
  | utf8CountedCodepoints =>
    obtain ⟨source, hsource, hcodepoint⟩ := (Option.any_eq_true _ _).1 h
    have hcodepoint : source.bytes = jsonStringCodepoint := by simpa using hcodepoint
    refine ⟨source, hsource, fun c _ => ?_⟩
    rw [hcodepoint]
    exact hr.codepoint c

/-- A pattern that is neither compiled nor built in matches character by character. -/
theorem regexMatches_other {regex : StrRef} {minLen maxLen : Option UInt32} {charset : Charset}
    (huser : ¬isUserPattern w (.stringPattern regex minLen maxLen charset) = true)
    (hbuiltin : ¬builtIn w regex charset = true) :
    regexMatches r w regex charset s ↔ everyCharacter r w regex s := by
  cases charset with
  | utf8Any =>
    refine absurd ?_ huser
    unfold builtIn at hbuiltin
    simpa [isUserPattern] using hbuiltin
  | asciiPrintableNoQuoteBackslash => exact Iff.rfl
  | utf8CountedCodepoints => exact Iff.rfl

theorem passedOver_eq_false (h : ∀ regex minLen maxLen charset negative,
    stringIntersectionBranch w branch ≠ some (.pattern regex minLen maxLen charset negative)) :
    passedOver w branch = false := by
  unfold passedOver
  split
  · rename_i hbranch
    exact absurd hbranch (h _ _ _ _ _)
  · rfl

omit [DecidableEq σ] in
/-- **A branch is harmless iff it accepts all that is left.** -/
theorem harmless_iff (hr : r.Sound dense) {branchIds : List NodeId} (hmem : branch ∈ branchIds) :
    Harmless r w branchIds branch ↔ ∀ s, Left r w branchIds s → branchAccepts r w branch s := by
  have hkept : ∀ s, Left r w branchIds s → passedOver w branch = false → branchAccepts r w branch s :=
    fun s h => (h.2 branch hmem).2
  have hcompiled : passedOver w branch = false → ∀ s, Left r w branchIds s → branchAccepts r w branch s :=
    fun hover s h => hkept s h hover
  unfold Harmless
  split
  · rename_i regex minLen maxLen charset hnode
    have hover : passedOver w branch = !isUserPattern w (.stringPattern regex minLen maxLen charset) := by
      unfold passedOver stringIntersectionBranch
      rw [hnode]
    have haccepts : ∀ s, Left r w branchIds s → (branchAccepts r w branch s ↔ regexMatches r w regex charset s) := by
      intro s h
      have hbounds := (h.2 branch hmem).1
      rw [boundsAdmit, hnode] at hbounds
      rw [branchAccepts, hnode]
      exact and_iff_left hbounds
    by_cases huser : isUserPattern w (.stringPattern regex minLen maxLen charset) = true
    · exact iff_of_true (Or.inl huser) (hcompiled (by rw [hover, huser]; rfl))
    · by_cases hbuiltin : builtIn w regex charset = true
      · exact iff_of_true (Or.inr (Or.inl hbuiltin)) fun s h => (haccepts s h).2 (regexMatches_builtIn hr hbuiltin s)
      · simp only [huser, hbuiltin, Bool.false_eq_true, false_or]
        exact forall₂_congr fun s h => by rw [haccepts s h, regexMatches_other huser hbuiltin]
  · rename_i inner hnode
    split
    · rename_i regex charset hinner
      have hover : passedOver w branch = !isUserPattern w (.stringPattern regex none none charset) := by
        unfold passedOver stringIntersectionBranch
        rw [hnode]
        dsimp only
        rw [hinner]
      have haccepts : ∀ s, branchAccepts r w branch s ↔ ¬regexMatches r w regex charset s := by
        intro s
        unfold branchAccepts
        rw [hnode]
        simp [hinner, stringNodeAccepts, withinLengths]
      by_cases huser : isUserPattern w (.stringPattern regex none none charset) = true
      · exact iff_of_true (Or.inl huser) (hcompiled (by rw [hover, huser]; rfl))
      · simp only [huser, Bool.false_eq_true, false_or]
        split
        · rename_i hbuiltin
          exact forall₂_congr fun s h => iff_of_false id
            (fun hb => (haccepts s).1 hb (regexMatches_builtIn hr hbuiltin s))
        · rename_i hbuiltin
          exact forall₂_congr fun s h => by rw [haccepts s, regexMatches_other huser hbuiltin]
    · rename_i hother
      refine iff_of_true trivial
        (hcompiled (passedOver_eq_false fun regex minLen maxLen charset negative hbranch => ?_))
      have hnodes := stringIntersectionBranch_some hbranch
      cases negative with
      | false => cases hnode.symm.trans hnodes
      | true =>
        obtain ⟨-, -, inner', hnot, hinner⟩ := hnodes
        cases hnode.symm.trans hnot
        exact hother _ _ hinner
  · rename_i hpattern hother
    refine iff_of_true trivial (hcompiled (passedOver_eq_false fun regex minLen maxLen charset negative hbranch => ?_))
    have hnodes := stringIntersectionBranch_some hbranch
    cases negative with
    | false => exact hpattern _ _ _ _ hnodes
    | true =>
      obtain ⟨-, -, inner, hnot, -⟩ := hnodes
      exact hother _ hnot

/-- An intersection that became a string node was built by the fast path. -/
theorem buildIntersectionNode_string {branches : RefSlice} {branchIds : List NodeId} {plan : StringPlan}
    (hids : w.refsAt branches = some branchIds) (h : buildIntersectionNode dense w branches = .ok (.string plan)) :
    fastStringIntersection w branchIds = true ∧ buildIntersectionPattern dense w branchIds = .ok plan := by
  have hall : ∀ ids, buildAllPlan w ids ≠ .ok (.string plan) := by
    intro ids hids
    unfold buildAllPlan at hids
    split at hids
    · cases hids
    · split at hids <;> cases hids
  unfold buildIntersectionNode at h
  rw [hids] at h
  split at h
  · rename_i hfast
    split at h
    · rename_i plan' hbuild
      cases h
      exact ⟨hfast, hbuild⟩
    · split at h
      · exact absurd h (hall _)
      · cases h
  · exact absurd h (hall _)

/-- **The fast path is the intersection iff passing branches over does no harm.**  A frame of the node closes the JSON
texts of exactly the strings that every branch accepts, counts that overflow apart. -/
theorem string_intersection_iff (hr : r.Sound dense) {branches : RefSlice} {branchIds : List NodeId} {plan : StringPlan}
    (hids : w.refsAt branches = some branchIds) (hplan : buildIntersectionNode dense w branches = .ok (.string plan)) :
    (∀ s text, JsonString s text → plan.readString plan.freshFrame text ≠ none →
      (plan.readString plan.freshFrame text = some true ↔ ∀ branch ∈ branchIds, branchAccepts r w branch s)) ↔
        ∀ branch ∈ branchIds, Harmless r w branchIds branch := by
  obtain ⟨-, hbuild⟩ := buildIntersectionNode_string hids hplan
  have hkept := buildIntersectionPattern_ok hr hbuild
  constructor
  · intro h branch hmem
    refine (harmless_iff hr hmem).2 fun s hleft => ?_
    obtain ⟨hfew, hadmits⟩ := hleft
    obtain ⟨body, hbody⟩ := exists_spelling s
    have hjson : JsonString s (0x22 :: (body ++ [0x22])) := ⟨body, rfl, hbody⟩
    have hdecides := plan.string_frame_exact hjson
    have hplan' := (hkept s).2 hadmits
    cases hanswer : plan.readString plan.freshFrame (0x22 :: (body ++ [0x22])) with
    | none =>
      rw [hanswer] at hdecides
      exact absurd hdecides (Nat.not_lt.2 hfew)
    | some answer =>
      rw [hanswer] at hdecides
      cases answer with
      | false => exact absurd hplan' hdecides
      | true => exact (h s _ hjson (by rw [hanswer]; exact Option.some_ne_none _)).1 hanswer branch hmem
  · intro h s text hjson hsome
    have hdecides := plan.string_frame_exact hjson
    cases hanswer : plan.readString plan.freshFrame text with
    | none => exact absurd hanswer hsome
    | some answer =>
      rw [hanswer] at hdecides
      cases answer with
      | false =>
        refine ⟨fun hf => (by cases hf), fun hall => absurd ((hkept s).2 fun branch hmem => ?_) hdecides⟩
        exact keptAccepts_of_accepts (hall branch hmem)
      | true =>
        refine ⟨fun _ branch hmem => ?_, fun _ => rfl⟩
        exact (harmless_iff hr hmem).1 (h branch hmem) s ⟨hdecides.2, (hkept s).1 hdecides.1⟩

end

/-- An arena of nodes, with the branches of its one intersection. -/
def intersectionArena (nodes : List Node) (strings : List Byte) (branches : List NodeId) : SchemaIRWire where
  irVersion := Ir.irVersion
  root := 0
  nodes := nodes
  strings := strings
  literals := []
  props := []
  dependentRequiredPairs := []
  requiredBits := []
  nodeRefs := branches
  defTargets := []
  retrievalUri := none
  resources := []
  anchors := []
  nodeResources := []
  options := ⟨.assumeClosedProfile, false, .rejectAtCompile, 0⟩
  diagnostics := []

/-- The pattern of the texts that are not empty. -/
def someSource : List Byte := ascii "(?s:.)+"

/-- A library that compiles that pattern alone. -/
def denseSome (source : List Byte) : Except CompileError (DenseDfa Bool) :=
  if source = someSource then .ok DenseDfa.someDfa else .error ⟨.unsupported, .l3, "other pattern"⟩

def someMeaning : RegexMeaning := ⟨fun source s => source = someSource → s ≠ [], fun _ _ => True⟩

theorem someMeaning_sound : someMeaning.Sound denseSome where
  lawful := by
    intro source d h
    unfold denseSome at h
    split at h
    · cases h
      exact DenseDfa.someDfa_lawful
    · cases h
  compiled := by
    intro source d h s
    unfold denseSome at h
    split at h
    · rename_i hsource
      cases h
      have hfold : ∀ u : List Byte, u.foldl (fun _ _ => true) true = true := by
        intro u
        induction u with
        | nil => rfl
        | cons b u ih => exact ih
      have haccepts : ∀ u : List Byte, DenseDfa.someDfa.accepts u = true ↔ u ≠ [] := by
        intro u
        cases u with
        | nil => decide
        | cons b u => exact ⟨fun _ => List.cons_ne_nil _ _, fun _ => hfold u⟩
      rw [haccepts]
      refine (not_congr ?_).trans (imp_iff_right hsource).symm
      cases s with
      | nil => exact ⟨fun _ => rfl, fun _ => rfl⟩
      | cons c s => simp [textBytes]
    · cases h
  literal := by
    intro v d h
    have hne : decodedLiteralPattern v ≠ someSource := by
      cases v with
      | nil => decide
      | cons c v => exact fun heq => absurd (List.cons.inj heq).1 (by decide)
    unfold denseSome at h
    rw [if_neg hne] at h
    cases h
  anyScalars := fun _ h => absurd h (by decide)
  body := fun _ => trivial
  codepoint := fun _ => trivial

/-- A user pattern, and an unconstrained string. -/
def arenaSome : SchemaIRWire := intersectionArena
  [.stringPattern ⟨0, 7⟩ none none .utf8Any, .stringPattern ⟨7, UInt32.ofNat jsonStringBody.length⟩ none none .utf8Any]
  (someSource ++ jsonStringBody) [0, 1]

/-- The string node a build gave. -/
def stringPlanOf (x : Except PlanCompileFailure NodePlan) : Option StringPlan :=
  match x with
  | .ok (.string plan) => some plan
  | _ => none

theorem stringPlanOf_some {x : Except PlanCompileFailure NodePlan} {plan : StringPlan}
    (h : stringPlanOf x = some plan) :
    x = .ok (.string plan) := by
  unfold stringPlanOf at h
  split at h
  · cases h
    rfl
  · cases h

/-- The texts that are not empty: the unconstrained string is passed over, and does no harm. -/
theorem string_intersection_some : ∃ plan, buildIntersectionNode denseSome arenaSome ⟨0, 2⟩ = .ok (.string plan) ∧
    ∀ s text, JsonString s text → plan.readString plan.freshFrame text ≠ none →
      (plan.readString plan.freshFrame text = some true ↔ ∀ branch ∈ [0, 1],
        branchAccepts someMeaning arenaSome branch s) := by
  have hsome : (stringPlanOf (buildIntersectionNode denseSome arenaSome ⟨0, 2⟩)).isSome = true := by decide +kernel
  obtain ⟨plan, hplan⟩ := Option.isSome_iff_exists.1 hsome
  have hids : arenaSome.refsAt ⟨0, 2⟩ = some [0, 1] := by decide +kernel
  have huser : isUserPattern arenaSome (.stringPattern ⟨0, 7⟩ none none .utf8Any) = true := by decide +kernel
  have hbuiltin : builtIn arenaSome ⟨7, UInt32.ofNat jsonStringBody.length⟩ .utf8Any = true := by decide +kernel
  refine ⟨plan, stringPlanOf_some hplan, (string_intersection_iff someMeaning_sound hids
    (stringPlanOf_some hplan)).2 ?_⟩
  intro branch hmem
  rcases List.mem_cons.1 hmem with rfl | hmem
  · exact Or.inl huser
  · rcases List.mem_singleton.1 hmem with rfl
    exact Or.inr (Or.inl hbuiltin)

/-- An unconstrained string, and its negation. -/
def arenaNegated : SchemaIRWire := intersectionArena
  [.stringPattern ⟨0, UInt32.ofNat jsonStringBody.length⟩ none none .utf8Any, .not 0] jsonStringBody [0, 1]

/-- **The negation of an unconstrained string excludes nothing**: the frame closes the empty string, which the negation
refuses. -/
theorem string_intersection_negated_string : ∃ plan,
    buildIntersectionNode denseSome arenaNegated ⟨0, 2⟩ = .ok (.string plan) ∧
    ¬∀ s text, JsonString s text → plan.readString plan.freshFrame text ≠ none →
      (plan.readString plan.freshFrame text = some true ↔ ∀ branch ∈ [0, 1],
        branchAccepts someMeaning arenaNegated branch s) := by
  have hsome : (stringPlanOf (buildIntersectionNode denseSome arenaNegated ⟨0, 2⟩)).any (fun plan =>
      plan.readString plan.freshFrame [0x22, 0x22] == some true) = true := by decide +kernel
  obtain ⟨plan, hplan, hread⟩ := (Option.any_eq_true _ _).1 hsome
  have hread : plan.readString plan.freshFrame [0x22, 0x22] = some true := by simpa using hread
  refine ⟨plan, stringPlanOf_some hplan, fun h => ?_⟩
  have hall := (h [] [0x22, 0x22] ⟨[], rfl, .nil⟩ (by rw [hread]; exact Option.some_ne_none _)).1 hread
  obtain ⟨node, hnode, hrefuses⟩ : ∃ node, arenaNegated.node 0 = some node ∧
    ¬stringNodeAccepts someMeaning arenaNegated node [] :=
    hall 1 (List.mem_cons_of_mem _ List.mem_cons_self)
  cases hnode
  have hstr : ((arenaNegated.strAt ⟨0, UInt32.ofNat jsonStringBody.length⟩).any fun source =>
    source.bytes == jsonStringBody) = true := by
    decide +kernel
  obtain ⟨source, hsource, hbody⟩ := (Option.any_eq_true _ _).1 hstr
  refine hrefuses ⟨⟨source, hsource, ?_⟩, Nat.zero_le _, fun maximum hmax => (by cases hmax)⟩
  dsimp only
  rw [if_pos (by simpa using hbody)]
  trivial

end MaskForge
