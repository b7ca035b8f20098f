import MaskForge.Automaton.IntegerNotation
import MaskForge.Automaton.Limits
import MaskForge.Automaton.StringSet
import MaskForge.Ir.LowerNode
import MaskForge.Ir.Wire
/-!
# CompileNode — a regular node as one engine

A node is compiled by the parts it has: automata are built for what a pattern would blow up on, and everything else goes
through the text of a pattern.  This is a second classification of the nodes, made without looking at their routes, and
it agrees with the first: a node whose route is regular is compiled, or there is no room for its automaton, or the regex
library refuses a pattern (`route_analysis_sound`).
-/
namespace MaskForge
namespace Ir

open RefEngine (limitErr)

/-- Why the library builds no automaton: whether its own size limit was hit, or that of the NFA. -/
structure BuildError where
  isSizeLimitExceeded : Bool
  nfaSizeLimitHit : Bool

def mapBuildError (e : BuildError) : CompileError :=
  ⟨if e.nfaSizeLimitHit || e.isSizeLimitExceeded then .internalLimitExceeded else .malformed, .l3,
    "regex-automata failed to build the byte DFA"⟩

section
variable (w : SchemaIRWire) {σ : Type} [DecidableEq σ] (builder : List Char → Except BuildError (DenseDfa σ))

/-- The library's builder, with its errors mapped. -/
def dense (pattern : List Char) : Except CompileError (DenseDfa σ) := (builder pattern).mapError mapBuildError

/-- `build_from_regex`. -/
def regexEngine (pattern : List Char) : Compile RefEngine := .ofExcept (buildFromRegex (dense builder) pattern)

/-! ### Parts -/

def concatEngine (engines : List RefEngine) : Compile RefEngine :=
  .ofExcept (concatenate engines >>= RefEngine.fromGraph)

def unionEngine (engines : List RefEngine) : Compile RefEngine := .ofExcept (union engines >>= RefEngine.fromGraph)

def repeated (e : RefEngine) (min : Nat) (max : Option Nat) : Compile RefEngine :=
  .ofExcept (repeatEngine e min max >>= RefEngine.fromGraph)

def surroundEngine (e : RefEngine) (before after : List Char) : Compile RefEngine := do
  let before ← regexEngine builder before
  let after ← regexEngine builder after
  concatEngine [before, e, after]

/-- Between brackets, with whitespace inside. -/
def surroundBy (openText closeText : List Char) (e : RefEngine) : Compile RefEngine :=
  surroundEngine builder e (openText ++ jsonWsRe) (jsonWsRe ++ closeText)

def compileStringEnum (values : LitSlice) : Compile RefEngine := do
  let literals ← need (w.litsAt values) (internal "enum ref")
  let strings := literals.filterMap fun literal => match literal with
    | .str s => some s.chars
    | _ => none
  .ofExcept (StringSet.stringSet strings >>= RefEngine.fromGraph)

section
variable (compile : NodeId → Compile RefEngine)

def compileProductNode (branches : RefSlice) (combinator : Combinator) : Compile RefEngine := do
  let ids ← need (w.refsAt branches) (internal "branch ref")
  let engines ← Outcome.collect compile ids
  .ofExcept (ProductAutomaton.build engines combinator >>= ProductAutomaton.intoEngine)

def compileUnionNode (branches : RefSlice) : Compile RefEngine := do
  let ids ← need (w.refsAt branches) (internal "branch ref")
  let engines ← Outcome.collect compile ids
  unionEngine engines

/-- One field of an object: the engine of its name and value, and whether it is required. -/
def compileField (required : BitSlice) (field : (StrRef × NodeId) × Nat) : Compile (RefEngine × Bool) := do
  let name ← need (w.strAt field.1.1) (internal "field name")
  let before ← regexEngine builder (escapeRegex (jsonEncode name.chars) ++ colonSep)
  let child ← compile field.1.2
  let engine ← concatEngine [before, child]
  let index ← .ofExcept (checkedU32 (internal "field index overflow") field.2)
  return (engine, w.isRequired required index)

def compileObjectNode (fields : PropSlice) (required : BitSlice) : Compile RefEngine := do
  let properties ← need (w.propsAt fields) (internal "object ref")
  let compiled ← Outcome.collect (compileField w builder compile required) properties.zipIdx
  let separator ← regexEngine builder commaSep
  let body ← .ofExcept (ShuffleAutomaton.build (compiled.map Prod.fst)
    (compiled.map Prod.snd) separator >>= ShuffleAutomaton.intoEngine)
  surroundBy builder ['\\', '{'] ['\\', '}'] body

/-- The items of an array without its brackets: none, or one with the rest behind commas. -/
def arrayItemsEngine (item commaItem : RefEngine) (minItems : Nat) (maxItems : Option Nat) : Compile RefEngine :=
  if maxItems = some 0 then regexEngine builder []
  else if minItems = 0 then do
    let tail ← repeated commaItem 0 (maxItems.map (· - 1))
    let nonempty ← concatEngine [item, tail]
    let empty ← regexEngine builder []
    unionEngine [empty, nonempty]
  else do
    let tail ← repeated commaItem (minItems - 1) (maxItems.map (· - 1))
    concatEngine [item, tail]

def compileArrayNode (item : NodeId) (minItems : Nat) (maxItems : Option Nat) : Compile RefEngine := do
  let item ← compile item
  let comma ← regexEngine builder commaSep
  let commaItem ← concatEngine [comma, item]
  let body ← arrayItemsEngine builder item commaItem minItems maxItems
  surroundBy builder ['\\', '['] ['\\', ']'] body

def tupleExactEngine (prefixes : List RefEngine) (tail : Option RefEngine) (count : Nat) : Compile RefEngine :=
  if count = 0 then regexEngine builder []
  else do
    let comma ← regexEngine builder commaSep
    let items ← Outcome.collect
      (fun index => need (prefixes[index]?.or tail) ⟨.malformed, .l3, "tuple count exceeds closed tail"⟩)
        (List.range count)
    concatEngine (items.intersperse comma)

/-- Every length beyond the prefix, where the tail has no upper bound. -/
def tupleUnboundedEngine (prefixes : List RefEngine) (tail : RefEngine) (baseCount : Nat) : Compile RefEngine := do
  let base ← tupleExactEngine builder prefixes (some tail) baseCount
  let comma ← regexEngine builder commaSep
  let commaTail ← concatEngine [comma, tail]
  let rest ← repeated commaTail 0 none
  concatEngine [base, rest]

def tupleBodyEngine (prefixes : List RefEngine) (tail : Option RefEngine) (minItems : Nat) (maxItems : Option Nat) :
    Compile RefEngine := do
  let prefixLen ← .ofExcept (checkedU32 (internal "tuple length") prefixes.length)
  let upper := maxItems.getD prefixLen
  let finiteUpper := if tail.isSome then upper else Nat.min upper prefixLen
  let finite ← Outcome.collect (tupleExactEngine builder prefixes tail)
    (List.range' minItems (finiteUpper + 1 - minItems))
  let unbounded ← Outcome.optional (fun tail => tupleUnboundedEngine builder prefixes tail (Nat.max minItems prefixLen))
    (if maxItems.isNone then tail else none)
  unionEngine (finite ++ unbounded.toList)

def compileTupleNode (prefixes : RefSlice) (tail : Option NodeId) (minItems : Nat) (maxItems : Option Nat) :
    Compile RefEngine := do
  let ids ← need (w.refsAt prefixes) (internal "tuple ref")
  let prefixEngines ← Outcome.collect compile ids
  let tailEngine ← Outcome.optional compile tail
  let body ← tupleBodyEngine builder prefixEngines tailEngine minItems maxItems
  surroundBy builder ['\\', '['] ['\\', ']'] body

end

/-! ### Nodes -/

/-- All values of an enum are strings. -/
def allStrings (values : LitSlice) : Bool := (w.litsAt values).any fun literals => literals.all ScalarLit.isStr

/-- An object without dependencies of either kind. -/
def noDependents (dependent : PropSlice) (dependentRequired : DependentRequiredSlice) : Bool :=
  (w.propsAt dependent).any (fun items => items.isEmpty) && (w.dependentRequiredAt dependentRequired).any fun items =>
    items.isEmpty

def usesDirectCompilation : Node → Bool
  | .integer _ _ multipleOf => multipleOf.isSome
  | .intersection _ | .exactlyOne _ | .union _ => true
  | .enum values => allStrings w values
  | .object _ _ _ dependent dependentRequired => noDependents w dependent dependentRequired
  | .array (.schema _) _ _ uniqueItems contains _ => !uniqueItems && contains.isNone
  | .tuple _ _ _ _ uniqueItems _ contains => !uniqueItems && contains.isNone
  | _ => false

/-- The pattern of a node's text, without whitespace around it. -/
def compileText (id : NodeId) : Compile RefEngine := do
  let text ← lowerReachable w id
  regexEngine builder text

/-- `compile_unwrapped`; the depth bounds the recursion, which back-edges keep under the node's index. -/
def compileUnwrapped : Nat → NodeId → Compile RefEngine
  | 0, _ => .ofOption none
  | depth + 1, id => do
    let node ← need (w.node id) (internal "node id out of range")
    match node with
    | .integer minimum maximum (some modulus) =>
      ExceptT.mk (MultipleOf.compileIntegerMultiple (dense builder) minimum maximum modulus.toNat)
    | .intersection branches => compileProductNode w (compileUnwrapped depth) branches .all
    | .exactlyOne branches => compileProductNode w (compileUnwrapped depth) branches .exactlyOne
    | .union branches => compileUnionNode w (compileUnwrapped depth) branches
    | .enum values => if allStrings w values then compileStringEnum w values else compileText w builder id
    | .object fields required _ dependent dependentRequired =>
      if noDependents w dependent dependentRequired then
        compileObjectNode w builder (compileUnwrapped depth) fields required
      else compileText w builder id
    | .array (.schema item) minItems maxItems false none _ =>
      compileArrayNode builder (compileUnwrapped depth) item minItems.toNat (maxItems.map UInt32.toNat)
    | .tuple prefixes tail minItems maxItems false _ none =>
      compileTupleNode w builder (compileUnwrapped depth) prefixes tail minItems.toNat (maxItems.map UInt32.toNat)
    | _ => compileText w builder id

def compileNode (id : NodeId) : Compile RefEngine := do
  let node ← need (w.node id) (internal "node id out of range")
  if usesDirectCompilation w node then do
    let body ← compileUnwrapped w builder w.nodes.length id
    surroundEngine builder body jsonWsRe jsonWsRe
  else do
    let body ← lowerReachable w id
    regexEngine builder (jsonWsRe ++ body ++ jsonWsRe)

end

/-! ### What the engines of a node fail with -/

/-- An error of the pattern compiler, on some pattern. -/
def RegexEngineError {σ : Type} [DecidableEq σ] (builder : List Char → Except BuildError (DenseDfa σ))
    (err : CompileError) : Prop :=
  ∃ pattern, buildFromRegex (dense builder) pattern = .error err

/-- No room, or a pattern that the library or its import refuses. -/
def Tolerated {σ : Type} [DecidableEq σ] (builder : List Char → Except BuildError (DenseDfa σ)) (err : CompileError) :
    Prop :=
  err ∈ resourceLimits ∨ RegexEngineError builder err

section
variable {w : SchemaIRWire} {env : Externals} {σ : Type} [DecidableEq σ]
  {builder : List Char → Except BuildError (DenseDfa σ)}

/-- A computation that is not refused. -/
abbrev Sound {α : Type} (builder : List Char → Except BuildError (DenseDfa σ)) (x : Compile α) : Prop :=
  Outcome.Within (Tolerated builder) (fun _ => True) x

theorem sound_limits {x : Except CompileError RefEngine} (h : ∀ err, x = .error err → err ∈ resourceLimits) :
    Sound builder (Outcome.ofExcept x) := .ofExcept (fun _ _ => trivial) fun err herr => .inl (h err herr)

theorem sound_need {α β : Type} {o : Option α} {a : α} {err : CompileError} {f : α → Compile β} (h : o = some a)
    (hf : Sound builder (f a)) :
    Sound builder (need o err >>= f) := by
  subst h
  refine Outcome.Within.bind (P := (· = a)) (.ofExcept (fun b hb => (Except.ok.inj hb).symm) fun _ herr => by
    cases herr) ?_
  rintro _ rfl
  exact hf

theorem regexEngine_sound (pattern : List Char) : Sound builder (regexEngine builder pattern) :=
  .ofExcept (fun _ _ => trivial) fun _ herr => .inr ⟨pattern, herr⟩

theorem concatEngine_sound (engines : List RefEngine) : Sound builder (concatEngine engines) :=
  sound_limits fun _ h => materialized_error h fun _ herr => concatenate_error herr ▸ graphLimit_mem

theorem unionEngine_sound (engines : List RefEngine) : Sound builder (unionEngine engines) :=
  sound_limits fun _ h => materialized_error h fun _ herr => union_error herr ▸ graphLimit_mem

theorem repeated_sound (e : RefEngine) {min : Nat} {max : Option Nat} (hbounds : ∀ m, max = some m → min ≤ m) :
    Sound builder (repeated e min max) :=
  sound_limits fun _ h => materialized_error h fun _ herr => repeatEngine_error hbounds herr ▸ graphLimit_mem

theorem surroundEngine_sound (e : RefEngine) (before after : List Char) :
    Sound builder (surroundEngine builder e before after) :=
  (regexEngine_sound before).bind fun _ _ => (regexEngine_sound after).bind fun _ _ => concatEngine_sound _

/-- The errors of the pattern compiler are its own. -/
theorem regexEngineError_cases {err : CompileError} (h : RegexEngineError builder err) :
    err.message ∈ ["regex-automata failed to build the byte DFA", "byte DFA reached a quit state",
      "anchored start state does not exist", limitErr.message] := by
  obtain ⟨pattern, h⟩ := h
  unfold buildFromRegex at h
  rcases bind_error h with h | ⟨d, -, h⟩
  · unfold dense at h
    cases hbuild : builder pattern with
    | ok d =>
      rw [hbuild] at h
      cases h
    | error e =>
      rw [hbuild] at h
      cases h
      exact List.mem_cons_self
  · rcases DenseDfa.bfsMaterialize_error h with rfl | rfl | rfl
    all_goals decide

/-! ### Parts -/

section
variable {compile : NodeId → Compile RefEngine}

theorem compileProductNode_sound {branches : RefSlice} {ids : List NodeId} (c : Combinator)
    (hids : w.refsAt branches = some ids) (hne : ids ≠ []) (hcompile : ∀ id ∈ ids, Sound builder (compile id)) :
    Sound builder (compileProductNode w compile branches c) := by
  refine sound_need hids ((Outcome.Within.collect hcompile).bind fun engines hengines => sound_limits fun err h => ?_)
  refine ProductAutomaton.build_intoEngine_error (fun hnil => hne ?_) h
  rw [hnil, List.length_nil] at hengines
  exact List.length_eq_zero_iff.1 hengines.1.symm

theorem compileUnionNode_sound {branches : RefSlice} {ids : List NodeId} (hids : w.refsAt branches = some ids)
    (hcompile : ∀ id ∈ ids, Sound builder (compile id)) : Sound builder (compileUnionNode w compile branches) :=
  sound_need hids ((Outcome.Within.collect hcompile).bind fun engines _ => unionEngine_sound engines)

theorem compileStringEnum_sound {values : LitSlice} {literals : List ScalarLit} (h : w.litsAt values = some literals) :
    Sound builder (compileStringEnum w values) :=
  sound_need h (sound_limits fun _ h => materialized_error h fun _ herr =>
    StringSet.stringSet_error herr ▸ graphLimit_mem)

theorem compileField_sound {required : BitSlice} {field : (StrRef × NodeId) × Nat} (hname : StrInRange w field.1.1)
    (hchild : Sound builder (compile field.1.2)) (hindex : field.2 < u32Size) :
    Sound builder (compileField w builder compile required field) := by
  obtain ⟨name, hname⟩ := hname
  refine sound_need hname ((regexEngine_sound _).bind fun _ _ => hchild.bind fun _ _ =>
    (concatEngine_sound _).bind fun engine _ => ?_)
  refine Outcome.Within.bind (P := fun _ => True) (.ofExcept (fun _ _ => trivial) fun err herr => ?_) fun _ _ =>
    .pure trivial
  rw [checkedU32, if_pos hindex] at herr
  cases herr

theorem compileObjectNode_sound {fields : PropSlice} {required : BitSlice} (hfields : PropsInRange w fields)
    (hcompile : ∀ id ∈ propRefs w fields, Sound builder (compile id)) :
    Sound builder (compileObjectNode w builder compile fields required) := by
  obtain ⟨properties, hproperties, hnames⟩ := hfields
  refine sound_need hproperties ((Outcome.Within.collect (Q := fun _ => True) fun field hfield => ?_).bind
    fun compiled _ =>
    (regexEngine_sound _).bind fun separator _ => Outcome.Within.bind (sound_limits fun err h => ?_) fun body _ =>
      surroundEngine_sound _ _ _)
  · have hmem := List.fst_mem_of_mem_zipIdx hfield
    refine compileField_sound (hnames _ hmem) (hcompile _ ?_) ?_
    · rw [propRefs, hproperties]
      exact List.mem_map_of_mem hmem
    · have hlt := List.snd_lt_of_mem_zipIdx hfield
      rw [length_runAt hproperties] at hlt
      exact Nat.lt_trans hlt fields.len.toNat_lt
  · exact ShuffleAutomaton.build_intoEngine_error (by rw [List.length_map, List.length_map]) h

theorem arrayItemsEngine_sound (item commaItem : RefEngine) {minItems : Nat} {maxItems : Option Nat}
    (hbounds : ∀ m, maxItems = some m → minItems ≤ m) :
    Sound builder (arrayItemsEngine builder item commaItem minItems maxItems) := by
  unfold arrayItemsEngine
  split
  · exact regexEngine_sound _
  split
  · exact (repeated_sound _ fun _ _ => Nat.zero_le _).bind fun _ _ => (concatEngine_sound _).bind fun _ _ =>
      (regexEngine_sound _).bind fun _ _ => unionEngine_sound _
  · refine Outcome.Within.bind (repeated_sound _ fun m hm => ?_) fun _ _ => concatEngine_sound _
    obtain ⟨max, hmax, rfl⟩ := Option.map_eq_some_iff.1 hm
    exact Nat.sub_le_sub_right (hbounds max hmax) 1

theorem compileArrayNode_sound {item : NodeId} {minItems : Nat} {maxItems : Option Nat}
    (hitem : Sound builder (compile item)) (hbounds : ∀ m, maxItems = some m → minItems ≤ m) :
    Sound builder (compileArrayNode builder compile item minItems maxItems) :=
  hitem.bind fun _ _ => (regexEngine_sound _).bind fun _ _ => (concatEngine_sound _).bind fun _ _ =>
    (arrayItemsEngine_sound _ _ hbounds).bind fun _ _ => surroundEngine_sound _ _ _

/-- As many items as there are positions, or a tail for the rest. -/
theorem tupleExactEngine_sound {prefixes : List RefEngine} {tail : Option RefEngine} {count : Nat}
    (h : tail.isSome = true ∨ count ≤ prefixes.length) :
    Sound builder (tupleExactEngine builder prefixes tail count) := by
  unfold tupleExactEngine
  split
  · exact regexEngine_sound _
  refine (regexEngine_sound _).bind fun _ _ => (Outcome.Within.collect (Q := fun _ => True) fun index hindex => ?_).bind
    fun _ _ =>
    concatEngine_sound _
  have hlt := List.mem_range.1 hindex
  have hitem : ∃ e, prefixes[index]?.or tail = some e := by
    rcases Nat.lt_or_ge index prefixes.length with hin | hout
    · exact ⟨prefixes[index], by rw [List.getElem?_eq_getElem hin, Option.some_or]⟩
    · obtain ⟨e, he⟩ := Option.isSome_iff_exists.1 (h.resolve_right (by omega))
      exact ⟨e, by rw [List.getElem?_eq_none hout, Option.none_or, he]⟩
  obtain ⟨e, he⟩ := hitem
  rw [he]
  exact .ofExcept (fun _ _ => trivial) fun _ herr => by cases herr

theorem tupleUnboundedEngine_sound (prefixes : List RefEngine) (tail : RefEngine) (baseCount : Nat) :
    Sound builder (tupleUnboundedEngine builder prefixes tail baseCount) :=
  (tupleExactEngine_sound (.inl rfl)).bind fun _ _ => (regexEngine_sound _).bind fun _ _ =>
    (concatEngine_sound _).bind fun _ _ =>
    (repeated_sound _ fun _ h => by cases h).bind fun _ _ => concatEngine_sound _

theorem tupleBodyEngine_sound {prefixes : List RefEngine} {tail : Option RefEngine} {minItems : Nat}
    {maxItems : Option Nat}
    (hlen : prefixes.length < u32Size) : Sound builder (tupleBodyEngine builder prefixes tail minItems maxItems) := by
  refine Outcome.Within.bind (P := (· = prefixes.length))
    (.ofExcept (fun n hn => (checkedU32_ok hn).1) fun err herr => ?_) ?_
  · rw [checkedU32, if_pos hlen] at herr
    cases herr
  rintro _ rfl
  refine (Outcome.Within.collect (Q := fun _ => True) fun count hcount => tupleExactEngine_sound ?_).bind fun _ _ =>
    (Outcome.Within.optional (Q := fun _ => True) fun tail _ => tupleUnboundedEngine_sound prefixes tail _).bind
      fun _ _ =>
      unionEngine_sound _
  -- without a tail the lengths end at the prefix
  cases tail with
  | some tail => exact .inl rfl
  | none =>
    refine .inr ?_
    obtain ⟨hge, hle⟩ := List.mem_range'_1.1 hcount
    rw [if_neg (by decide)] at hle
    have hmin : Nat.min (maxItems.getD prefixes.length) prefixes.length ≤ prefixes.length := Nat.min_le_right _ _
    omega

theorem compileTupleNode_sound {prefixes : RefSlice} {ids : List NodeId} {tail : Option NodeId} {minItems : Nat}
    {maxItems : Option Nat}
    (hids : w.refsAt prefixes = some ids) (hcompile : ∀ id ∈ ids ++ tail.toList, Sound builder (compile id)) :
    Sound builder (compileTupleNode w builder compile prefixes tail minItems maxItems) := by
  refine sound_need hids ((Outcome.Within.collect fun id hid => hcompile id (List.mem_append_left _ hid)).bind
    fun engines hengines =>
    (Outcome.Within.optional fun id hid => hcompile id (List.mem_append_right _ (Option.mem_toList.2 hid))).bind
      fun _ _ =>
      (tupleBodyEngine_sound ?_).bind fun _ _ => surroundEngine_sound _ _ _)
  rw [hengines.1, length_runAt hids]
  exact prefixes.len.toNat_lt

/-- An integer's bounds in order and its modulus not zero. -/
theorem compileIntegerMultiple_sound {minimum maximum : Option Int64} {modulus : Nat}
    (hbounds : ∀ l u, minimum = some l → maximum = some u → l ≤ u) (hpos : 0 < modulus) :
    Sound builder (ExceptT.mk (MultipleOf.compileIntegerMultiple (dense builder) minimum maximum modulus)) := by
  obtain ⟨pattern, hpattern⟩ := IntegerRegex.integerRegex_some hbounds
  rw [MultipleOf.compileIntegerMultiple, hpattern, Option.map_some]
  refine Outcome.Within.ofExcept (fun _ _ => trivial) fun err h => ?_
  rcases bind_error h with h | ⟨_, -, h⟩
  · exact .inr ⟨pattern, h⟩
  rcases bind_error h with h | ⟨_, -, h⟩
  · exact .inl (MultipleOf.multipleOfEngine_error hpos h)
  · exact .inl (ProductAutomaton.build_intoEngine_error (List.cons_ne_nil _ _) h)

end

/-! ### Texts of leaves -/

theorem ordered_le {lo hi : Option Int64} (h : ordered lo hi = true) : ∀ l u, lo = some l → hi = some u → l ≤ u := by
  rintro l u rfl rfl
  rw [ordered, Bool.not_eq_true', decide_eq_false_iff_not] at h
  exact Int64.not_lt.1 h

theorem noDependents_of_regular {fields : PropSlice} {required : BitSlice} {closure : ObjectClosure}
    {dependent : PropSlice} {dependentRequired : DependentRequiredSlice} {cost : CostEstimate}
    (hruns : RunsInRange w (.object fields required closure dependent dependentRequired))
    (h : localStructuredReason w (.object fields required closure dependent dependentRequired) cost = none) :
    noDependents w dependent dependentRequired = true := by
  obtain ⟨-, -, ⟨props, hprops, -⟩, ⟨pairs, hpairs, -⟩⟩ := hruns
  rw [localStructuredReason] at h
  split at h
  · cases h
  · rename_i hnone
    rw [hprops, hpairs] at hnone
    rw [noDependents, hprops, hpairs]
    simpa using hnone

theorem array_of_regular {items : ItemsPolicy NodeId} {minItems : UInt32} {maxItems : Option UInt32}
    {uniqueItems : Bool} {contains : Option (ContainsConstraint NodeId)} {annotates : Bool} {cost : CostEstimate}
    (h : localStructuredReason w (.array items minItems maxItems uniqueItems contains annotates) cost = none) :
    (∃ id, items = .schema id) ∧ uniqueItems = false ∧ contains = none := by
  rw [localStructuredReason] at h
  split at h
  · cases h
  · rename_i hplain
    cases items with
    | allowAny => simp at hplain
    | schema id => exact ⟨⟨id, rfl⟩, by simpa using hplain⟩

theorem tuple_of_regular {prefixes : RefSlice} {tail : Option NodeId} {minItems : UInt32} {maxItems : Option UInt32}
    {uniqueItems annotates : Bool} {contains : Option (ContainsConstraint NodeId)} {cost : CostEstimate}
    (h : localStructuredReason w (.tuple prefixes tail minItems maxItems uniqueItems annotates contains) cost = none) :
    uniqueItems = false ∧ contains = none := by
  rw [localStructuredReason] at h
  split at h
  · cases h
  · rename_i hplain
    simpa using hplain

/-- **A regular node that is not compiled directly is a leaf with a text.** -/
theorem lowerNode_leaf {i : Nat} {node : Node} {cost : CostEstimate} (hvalid : validateNode env w i node = .ok ())
    (hregular : localStructuredReason w node cost = none) (hdirect : usesDirectCompilation w node = false) :
    nodeChildren w node = .ok [] ∧ ∀ frag, Sound builder (lowerNode w node frag) := by
  have hruns := (validateNode_ok hvalid).1
  cases node with
  | null | boolean | never => exact ⟨rfl, fun _ => .pure trivial⟩
  | stringConst value =>
    obtain ⟨s, hs⟩ := hruns
    exact ⟨rfl, fun _ => sound_need hs (.pure trivial)⟩
  | stringPattern regex minLen maxLen charset =>
    obtain ⟨s, hs⟩ := hruns
    exact ⟨rfl, fun _ => sound_need hs (.pure trivial)⟩
  | lexicalNumber regex =>
    obtain ⟨s, hs⟩ := hruns
    exact ⟨rfl, fun _ => sound_need hs (.pure trivial)⟩
  | enum values =>
    obtain ⟨lits, hlits⟩ := hruns
    exact ⟨rfl, fun _ => sound_need hlits (.pure trivial)⟩
  | integer minimum maximum multipleOf =>
    refine ⟨rfl, fun _ => ?_⟩
    simp only [validateNode, bind_eq_ok, check_ok] at hvalid
    obtain ⟨-, hbounds, -⟩ := hvalid
    obtain ⟨text, htext⟩ := IntegerRegex.integerRegex_some (ordered_le hbounds)
    rw [lowerNode, if_neg (by rw [show multipleOf.isSome = false from hdirect]; decide), htext]
    exact .pure trivial
  | number integerOnly minimum maximum multipleOf =>
    refine ⟨rfl, fun _ => ?_⟩
    rw [localStructuredReason] at hregular
    split at hregular
    · cases hregular
    · rename_i hplain
      rw [lowerNode, if_neg hplain]
      exact .pure trivial
  | array items minItems maxItems uniqueItems contains itemsAnnotates =>
    obtain ⟨⟨id, rfl⟩, rfl, rfl⟩ := array_of_regular hregular
    cases hdirect
  | tuple prefixes tail minItems maxItems uniqueItems tailAnnotates contains =>
    obtain ⟨rfl, rfl⟩ := tuple_of_regular hregular
    cases hdirect
  | object fields required closure dependent dependentRequired =>
    exact absurd ((noDependents_of_regular hruns hregular).symm.trans hdirect) (by decide)
  | openObject | not | ref | dynamicRef | unevaluated | unsupported => cases hregular
  | union | intersection | exactlyOne => cases hdirect

/-- Lowering keeps the number of texts. -/
theorem lowerNodes_sound {reachable : List Bool} : ∀ {rest : List (Node × Nat)} (frag : List (List Char)),
    (∀ p ∈ rest, reachable[p.2]?.getD false = true → ∀ frag, Sound builder (lowerNode w p.1 frag)) →
      Outcome.Within (Tolerated builder) (fun frag' => frag'.length = frag.length) (lowerNodes w reachable rest frag)
  | [], _, _ => .pure rfl
  | (node, i) :: rest, frag, h => by
    have hrest := fun frag => lowerNodes_sound frag fun p hp => h p (List.mem_cons_of_mem _ hp)
    rw [lowerNodes]
    split
    · rename_i hi
      refine (h _ List.mem_cons_self hi frag).bind fun text _ => (hrest _).mono fun frag' hlen => ?_
      rw [hlen, List.length_set]
    · exact hrest frag

/-- **A leaf reaches itself alone.** -/
theorem reachableFrom_leaf {id : NodeId} {node : Node} (hnode : w.node id = some node)
    (hkids : nodeChildren w node = .ok []) :
    reachableFrom w id = pure ((List.replicate w.nodes.length false).set id.toNat true) := by
  have hlt : id.toNat < w.nodes.length := (List.getElem?_eq_some_iff.1 hnode).1
  have hneed : need (some node) (internal "node id out of range") = pure node := rfl
  rw [reachableFrom, reachTurns, reachLoop, List.getElem?_replicate, if_pos hlt, Option.getD_some,
    if_neg Bool.false_ne_true, hnode, hneed, pure_bind, hkids]
  rfl

/-- **A leaf is lowered by itself.** -/
theorem lowerReachable_leaf {id : NodeId} {node : Node} (hnode : w.node id = some node)
    (hkids : nodeChildren w node = .ok [])
    (hlower : ∀ frag, Sound builder (lowerNode w node frag)) : Sound builder (lowerReachable w id) := by
  have hlt : id.toNat < w.nodes.length := (List.getElem?_eq_some_iff.1 hnode).1
  rw [lowerReachable, reachableFrom_leaf hnode hkids, pure_bind]
  refine Outcome.Within.bind (lowerNodes_sound _ fun p hp hreached => ?_) fun frag hlen => ?_
  · have hp := List.mem_zipIdx_iff_getElem?.1 hp
    have hid : p.2 = id.toNat := by
      by_contra hne
      rw [List.getElem?_set_ne (Ne.symm hne), List.getElem?_replicate] at hreached
      split at hreached <;> cases hreached
    rw [hid] at hp
    obtain rfl := Option.some.inj (hp.symm.trans hnode)
    exact hlower
  · rw [List.length_replicate] at hlen
    refine .ofExcept (fun _ _ => trivial) fun err herr => ?_
    rw [List.getElem?_eq_getElem (hlen ▸ hlt)] at herr
    cases herr

/-! ### Nodes -/

theorem ordered_nat {lo : UInt32} {hi : Option UInt32} (h : ordered (some lo) hi = true) :
    ∀ m, hi.map UInt32.toNat = some m → lo.toNat ≤ m := by
  intro m hm
  obtain ⟨u, rfl, rfl⟩ := Option.map_eq_some_iff.1 hm
  rw [ordered, Bool.not_eq_true', decide_eq_false_iff_not] at h
  exact Nat.not_lt.1 h

/-- A regular route is a node's, and nothing about the node needs the structured engine. -/
theorem pass_regular {i : Nat} {route : NodeRoute} (h : (pass w).out i = some route) (hk : route.kind = .regular) :
    ∃ node, w.nodes[i]? = some node ∧ ∃ cost, localStructuredReason w node cost = none := by
  obtain ⟨view, rfl⟩ := pass_value h
  unfold routeOf at hk
  split at hk
  · rename_i node hnode
    exact ⟨node, hnode, (estimateNode_regular hk).1⟩
  · cases hk

/-- **A regular node is compiled, or fails for want of room or in the pattern compiler.** -/
theorem compileUnwrapped_sound (h : Validated env w) :
    ∀ (depth : Nat) (id : NodeId) {route : NodeRoute}, id.toNat < depth →
    (pass w).out id.toNat = some route → route.kind = .regular → Sound builder (compileUnwrapped w builder depth id)
  | 0, _, _, hd, _, _ => absurd hd (Nat.not_lt_zero _)
  | depth + 1, id, route, hd, hout, hk => by
    obtain ⟨node, hnode, cost, hlocal⟩ := pass_regular hout hk
    obtain ⟨-, hvalid⟩ := h.nodes id.toNat node hnode
    obtain ⟨hruns, hback⟩ := validateNode_ok hvalid
    have hchild : ∀ c ∈ forEachChild w (some node), c ∈ checkedRefs w node →
      Sound builder (compileUnwrapped w builder depth c) := by
      intro c hc hcr
      have hkid : c.toNat ∈ kidsOf w id.toNat := by
        rw [kidsOf, hnode]
        exact List.mem_map_of_mem hc
      obtain ⟨-, route', hout', hk'⟩ := regular_reach hout hk (.single hkid)
      exact compileUnwrapped_sound h depth c (Nat.lt_of_lt_of_le (hback c hcr) (Nat.le_of_lt_succ hd)) hout' hk'
    have htext : usesDirectCompilation w node = false → Sound builder (compileText w builder id) := fun hdirect => by
      have hleaf : nodeChildren w node = .ok [] ∧ ∀ frag, Sound builder (lowerNode w node frag) :=
        lowerNode_leaf hvalid hlocal hdirect
      exact (lowerReachable_leaf hnode hleaf.1 hleaf.2).bind fun _ _ => regexEngine_sound _
    rw [compileUnwrapped]
    refine sound_need hnode ?_
    cases node with
    | integer minimum maximum multipleOf =>
      cases multipleOf with
      | none => exact htext rfl
      | some modulus =>
        simp only [validateNode, bind_eq_ok, check_ok, bne_iff_ne] at hvalid
        obtain ⟨-, hbounds, hmodulus⟩ := hvalid
        exact compileIntegerMultiple_sound (ordered_le hbounds) (by
          refine Nat.pos_of_ne_zero fun h0 => hmodulus (congrArg some (UInt64.toNat_inj.1 h0)))
    | intersection branches =>
      obtain ⟨⟨ids, hids, hne⟩, -⟩ := validateBranches_ok hvalid
      refine compileProductNode_sound _ hids hne fun c hc => ?_
      have hc' : c ∈ branchRefs w branches := by rw [branchRefs, hids]; exact hc
      exact hchild c hc' hc'
    | exactlyOne branches =>
      obtain ⟨⟨ids, hids, hne⟩, -⟩ := validateBranches_ok hvalid
      refine compileProductNode_sound _ hids hne fun c hc => ?_
      have hc' : c ∈ branchRefs w branches := by rw [branchRefs, hids]; exact hc
      exact hchild c hc' hc'
    | union branches =>
      obtain ⟨⟨ids, hids, -⟩, -⟩ := validateBranches_ok hvalid
      refine compileUnionNode_sound hids fun c hc => ?_
      have hc' : c ∈ branchRefs w branches := by rw [branchRefs, hids]; exact hc
      exact hchild c hc' hc'
    | enum values =>
      dsimp only
      split
      · obtain ⟨lits, hlits⟩ := hruns
        exact compileStringEnum_sound hlits
      · rename_i hmixed
        exact htext (Bool.eq_false_of_not_eq_true hmixed)
    | object fields required closure dependent dependentRequired =>
      dsimp only
      rw [if_pos (noDependents_of_regular hruns hlocal)]
      exact compileObjectNode_sound hruns.1 fun c hc => hchild c (List.mem_append_left _ hc) (List.mem_append_left _ hc)
    | array items minItems maxItems uniqueItems contains itemsAnnotates =>
      obtain ⟨⟨id, rfl⟩, rfl, rfl⟩ := array_of_regular hlocal
      simp only [validateNode, bind_eq_ok, check_ok] at hvalid
      obtain ⟨-, -, hbounds⟩ := hvalid
      exact compileArrayNode_sound (hchild id (List.mem_append_left _ (List.mem_singleton_self _))
        (List.mem_singleton_self _)) (ordered_nat hbounds)
    | tuple prefixes tail minItems maxItems uniqueItems tailAnnotates contains =>
      obtain ⟨rfl, rfl⟩ := tuple_of_regular hlocal
      obtain ⟨ids, hids⟩ := hruns
      refine compileTupleNode_sound hids fun c hc => ?_
      have hc' : c ∈ branchRefs w prefixes ++ tail.toList := by rw [branchRefs, hids]; exact hc
      exact hchild c (List.mem_append_left _ hc') hc'
    | null | boolean | never | stringConst | stringPattern | number | lexicalNumber => exact htext rfl
    | openObject | not | ref | dynamicRef | unevaluated | unsupported => cases hlocal

theorem compileNode_sound (h : Validated env w) {id : NodeId} {route : NodeRoute}
    (hout : (pass w).out id.toNat = some route)
    (hk : route.kind = .regular) : Sound builder (compileNode w builder id) := by
  obtain ⟨node, hnode, cost, hlocal⟩ := pass_regular hout hk
  obtain ⟨-, hvalid⟩ := h.nodes id.toNat node hnode
  refine sound_need hnode ?_
  split
  · exact (compileUnwrapped_sound h w.nodes.length id (List.getElem?_eq_some_iff.1 hnode).1 hout hk).bind fun _ _ =>
      surroundEngine_sound _ _ _
  · rename_i hdirect
    have hleaf : nodeChildren w node = .ok [] ∧ ∀ frag, Sound builder (lowerNode w node frag) :=
      lowerNode_leaf hvalid hlocal (Bool.eq_false_of_not_eq_true hdirect)
    exact (lowerReachable_leaf hnode hleaf.1 hleaf.2).bind fun _ _ => regexEngine_sound _

/-- The errors that say a node should not have come to the compiler. -/
def refusals : List String :=
  [structuredBackendRequired.message, "multipleOf must use direct graph compilation",
    "object must use direct graph compilation",
    "union must use direct graph compilation", "intersection must use direct graph compilation",
    "oneOf must use direct graph compilation", "unsupported node reached the compiler"]

theorem Tolerated.not_refused {err : CompileError} (h : Tolerated builder err) : err.message ∉ refusals := by
  rcases h with h | h
  · revert err
    decide
  · have hmessage := regexEngineError_cases h
    revert hmessage
    generalize err.message = message
    revert message
    decide

/-- **Route analysis is closed and sound.**  The pass ends and routes every node.  What is reached from a regular node
is regular and on no cycle, and the node is compiled, or fails for want of room or in the pattern compiler. -/
theorem route_analysis_sound (w : SchemaIRWire) (env : Externals) (hvalid : validate env w = .ok ()) :
    ((pass w).stack = [] ∧ (analyze w).length = w.nodes.length ∧ ∀ i < w.nodes.length, ∃ route, (pass w).out i =
      some route ∧ (analyze w)[i]? = some route) ∧
    ∀ (id : NodeId) (route : NodeRoute), (analyze w)[id.toNat]? = some route → route.kind = .regular →
      (∀ j, Relation.ReflTransGen (Child w) id.toNat j →
        (∃ route', (analyze w)[j]? = some route' ∧ route'.kind = .regular) ∧
        ¬ Relation.TransGen (Child w) j j) ∧
      ∀ {σ : Type} [DecidableEq σ] (builder : List Char → Except BuildError (DenseDfa σ)), ∃ r,
      (compileNode w builder id).run = some r ∧
        ∀ err, r = .error err → (err ∈ resourceLimits ∨ RegexEngineError builder err) ∧ err.message ∉ refusals := by
  have hw := validate_ok hvalid
  refine ⟨⟨(pass_total w).1, by rw [analyze, List.length_map, List.length_range], fun i hi => ?_⟩,
    fun id route hroute hk => ⟨fun j hj => ?_, ?_⟩⟩
  · obtain ⟨route, hroute⟩ := (pass_total w).2 i hi
    refine ⟨route, hroute, ?_⟩
    rw [analyze, List.getElem?_map, List.getElem?_range hi, Option.map_some, hroute, Option.getD_some]
  · have hout := getElem_analyze hroute
    have hreg : ∃ route', (pass w).out j = some route' ∧ route'.kind = .regular := by
      rcases Relation.reflTransGen_iff_eq_or_transGen.1 hj with rfl | hj
      · exact ⟨route, hout, hk⟩
      · exact (regular_reach hout hk hj).2
    obtain ⟨route', hout', hk'⟩ := hreg
    refine ⟨⟨route', ?_, hk'⟩, fun hcycle => (regular_reach hout' hk' hcycle).1 rfl⟩
    obtain ⟨node, hnode, -⟩ := pass_regular hout' hk'
    rw [analyze, List.getElem?_map, List.getElem?_range (List.getElem?_eq_some_iff.1 hnode).1, Option.map_some, hout',
      Option.getD_some]
  · intro σ _ builder
    have hsound : Sound builder (compileNode w builder id) := compileNode_sound hw (getElem_analyze hroute) hk
    obtain ⟨r, hr, -, herror⟩ := hsound
    exact ⟨r, hr, fun err herr => ⟨herror err herr, (herror err herr).not_refused⟩⟩

end

/-- A text, taken for itself. -/
def textDfa (text : List Byte) : DenseDfa Nat where
  byteClass b := b.toNat
  start := some 0
  next s b := if text[s]? = some b then s + 1 else text.length + 1
  nextEoi s := if s = text.length then text.length + 2 else text.length + 1
  isDead s := decide (s = text.length + 1)
  isQuit _ := false
  isMatch s := decide (s = text.length + 2)

/-- A library that takes every pattern for the text it is, without its backslashes. -/
def literally (pattern : List Char) : Except BuildError (DenseDfa Nat) :=
  .ok (textDfa ((pattern.filter (· ≠ '\\')).flatMap String.utf8EncodeChar))

/-- An array of one or two letters; beside it an array of references to itself. -/
def ringArena : SchemaIRWire :=
  { loneArena .null with
    root := 1
    nodes := [.enum ⟨0, 1⟩, .array (.schema 0) 1 (some 2) false none true, .ref 0,
      .array (.schema 2) 0 none false none true]
    literals := [.str ⟨[0x62], rfl⟩]
    defTargets := [3]
    resources := [⟨none, 1, ⟨0, 0⟩, ⟨0, 0⟩⟩]
    nodeResources := [0, 0, 0, 0] }

/-- The array of letters is regular and on no cycle, and its compilation comes back without refusing it; the two nodes
of the ring are routed to the structured backend. -/
theorem route_analysis_sound_ring :
    (analyze ringArena).map (fun route => decide (route.kind = .regular)) = [true, true, false, false] ∧
      (∀ j, Relation.ReflTransGen (Child ringArena) 1 j → ¬Relation.TransGen (Child ringArena) j j) ∧
        ∃ r, (compileNode ringArena literally 1).run = some r ∧ ∀ err, r = .error err → err.message ∉ refusals := by
  have hkinds : (analyze ringArena).map (fun route => decide (route.kind = .regular)) = [true, true, false, false] := by
    decide +kernel
  obtain ⟨-, hregular⟩ := route_analysis_sound ringArena plainExternals rfl
  obtain ⟨route, hroute, hkind⟩ : ∃ route, (analyze ringArena)[1]? = some route ∧ route.kind = .regular := by
    have hone : ((analyze ringArena).map fun route => decide (route.kind = .regular))[1]? = some true := by
      rw [hkinds]
      rfl
    rw [List.getElem?_map] at hone
    obtain ⟨route, hroute, hkind⟩ := Option.map_eq_some_iff.1 hone
    exact ⟨route, hroute, of_decide_eq_true hkind⟩
  obtain ⟨hreach, hcompile⟩ := hregular 1 route hroute hkind
  obtain ⟨r, hr, herr⟩ := hcompile literally
  exact ⟨hkinds, fun j hj => (hreach j hj).2, r, hr, fun err he => (herr err he).2⟩

end Ir
end MaskForge
