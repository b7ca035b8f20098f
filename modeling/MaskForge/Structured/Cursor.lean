import MaskForge.Structured.Cycles
import MaskForge.Structured.StringDecoder
import MaskForge.Structured.StringEnum
/-!
# Cursor — a branch of an in-place applicator, fed byte by byte

A cursor is the state of one schema on the value at hand.  An applicator (a combinator, a negation, an unevaluated
frame) holds a cursor for each schema it applies and feeds every byte to all of them; what is left of the value decides
which of them live, and the applicator stops early where no cursor can be extended.

What a cursor does inside an object, an array or a string is not looked into: these are the `Frames` of `Parts`, frame
stacks that take a byte, refuse it or close the value.  Resource limits are not part of the model, so a step is taken or
refused.
-/
namespace MaskForge

/-- The parts of a session no applicator looks into. -/
structure Parts where
  /-- Frame stacks of an object, an array or a string. -/
  Frames : Type
  /-- `none` refuses the byte, `some none` closes the value. -/
  step : Frames → Byte → Option (Option Frames)
  /-- A value closes on its own last byte. -/
  closes : ∀ k b, step k b = some none → isWs b = false
  openNode : NodePlan → DynamicPlan.Scope → Frames
  anyString : Frames
  anyArray : Frames
  anyObject : Frames
  /-- `JsonStringDecoder`. -/
  Decoder : Type
  newDecoder : Decoder
  decode : Decoder → Byte → DecodeStep × Decoder
  atBoundary : Decoder → Bool
  /-- Whether a pending scalar can still narrow a run of enum members. -/
  pendingViable : StringEnumPlan → Nat → Nat → Nat → Decoder → Bool
  /-- The early refusals of an unevaluated frame, before and after its cursors take the byte: by what was read. -/
  commaRefused : UnevaluatedPlan → List Byte → Byte → Bool
  keyRefused : UnevaluatedPlan → List Byte → Byte → Bool
  /-- No candidate is open, and every location is evaluated by the scope or satisfies the unevaluated schema. -/
  covered : UnevaluatedPlan → List Byte → Bool

structure StringEnumFrame (δ : Type) where
  body : Bool
  decoder : δ
  lo : Nat
  hi : Nat
  decodedBytes : Nat
  deriving DecidableEq

/-- A cursor.  `regular` is a bare engine state, `regularFrame` a session rooted at a regular node; a branch that is no
longer active, and a session that is dead, is `dead`; a session whose root value is complete is `closed`. -/
inductive Cursor (P : Parts) : Type where
  | dead
  | closed
  | regular (engine : RefEngine) (state : Nat)
  | regularFrame (engine : RefEngine) (state : Nat)
  | number (engine : RefEngine) (plan : NumberPlan) (state : Nat) (accumulator : NumberAccumulator)
  | stringEnum (plan : StringEnumPlan) (frame : StringEnumFrame P.Decoder)
  | scalar (phase : ScalarPhase)
  | frames (k : P.Frames)
  | combinator (kind : CombinatorKind) (nodes : List Nat) (cursors : List (Cursor P))
  | negation (text inner : Cursor P)
  | unevaluated (plan : UnevaluatedPlan) (scope tracker : Cursor P) (instanceKind : Option UnevaluatedKind)
      (read : List Byte)

/-! ## Engines -/

namespace RefEngine

/-- `consume_token` on one byte, into a state that is not dead. -/
def stepByte (e : RefEngine) (s : Nat) (b : Byte) : Option Nat :=
  (e.consumeToken s [b]).filter (fun q => !e.isDead q)

/-- Some byte that is not whitespace is live. -/
def canExtendValue (e : RefEngine) (s : Nat) : Bool :=
  e.classTable.members.zipIdx.any (fun p => (e.liveClassesAt s).getLsbD p.2 && p.1.any (fun b => !isWs b))

/-- Every byte is whitespace or not live. -/
def onlyTrailingWhitespace (e : RefEngine) (s : Nat) : Bool :=
  (List.range 256).all (fun b => isWs (UInt8.ofNat b) || !(e.liveClassesAt s).getLsbD (e.classOfByte (UInt8.ofNat b)))

end RefEngine

def combinatorAccepts (kind : CombinatorKind) (accepting required : Nat) : Bool :=
  match kind with
  | .all => accepting == required
  | .any => decide (1 ≤ accepting)
  | .exactlyOne => accepting == 1

/-- The number of survivors says the value is over. -/
def combinatorBoundary (kind : CombinatorKind) (survivors count : Nat) : Bool :=
  match kind with
  | .all => survivors != count
  | .any | .exactlyOne => survivors == 0

namespace Cursor

variable {P : Parts}

mutual

/-- `is_accepting`. -/
def accepting : Cursor P → Bool
  | .dead => false
  | .closed => true
  | .regular e s => e.isAccepting s
  | .regularFrame e s => e.isAccepting s
  | .number e plan s acc => e.isAccepting s && numberAccepts acc plan
  | .stringEnum _ _ => false
  | .scalar phase => scalarIsComplete phase
  | .frames _ => false
  | .combinator kind _ cursors => combinatorAccepts kind (acceptingCount cursors) cursors.length
  | .negation text inner => text.accepting && !inner.accepting
  | .unevaluated plan scope tracker instanceKind read =>
    tracker.accepting && scope.accepting && (instanceKind != some plan.kind || P.covered plan read)

/-- `accepting_branch_count`. -/
def acceptingCount : List (Cursor P) → Nat
  | [] => 0
  | c :: cs => (if c.accepting then 1 else 0) + acceptingCount cs

end

mutual

/-- `can_extend_value`. -/
def canExtendValue : Cursor P → Bool
  | .dead | .closed => false
  | .regular e s => e.canExtendValue s
  | .regularFrame e s => e.canExtendValue s
  | .number _ _ _ _ => true
  | .stringEnum plan f =>
    !f.body || plan.containsExact f.lo f.hi f.decodedBytes || plan.canContinue f.lo f.hi f.decodedBytes
  | .scalar phase => phase != .literalDone
  | .frames _ => true
  | .combinator _ _ cursors => anyExtends cursors
  | .negation text _ => text.canExtendValue
  | .unevaluated _ _ _ _ _ => true

def anyExtends : List (Cursor P) → Bool
  | [] => false
  | c :: cs => c.canExtendValue || anyExtends cs

end

def isActive : Cursor P → Bool
  | .dead => false
  | _ => true

def isClosed : Cursor P → Bool
  | .closed => true
  | _ => false

/-- The root value ended before the byte. -/
def closeBefore (b : Byte) : Option (Cursor P) := if isWs b then some .closed else none

/-- Some branch can be extended, and for `oneOf` one whose node no other branch shares. -/
def branchesExtend (kind : CombinatorKind) (nodes : List Nat) (cursors : List (Cursor P)) : Bool :=
  (nodes.zip cursors).any (fun p => p.2.canExtendValue && (kind != .exactlyOne ||
    (nodes.zip cursors).countP (fun q => q.2.isActive && q.1 == p.1) == 1))

def pushRegular (e : RefEngine) (s : Nat) (b : Byte) : Option (Cursor P) := (e.stepByte s b).map (.regular e)

def pushRegularFrame (e : RefEngine) (s : Nat) (b : Byte) : Option (Cursor P) :=
  match e.stepByte s b with
  | some s' => if e.isAccepting s' && e.onlyTrailingWhitespace s' then some .closed else some (.regularFrame e s')
  | none => if e.isAccepting s then closeBefore b else none

def pushNumber (e : RefEngine) (plan : NumberPlan) (s : Nat) (acc : NumberAccumulator) (b : Byte) : Option (Cursor P) :=
  match e.stepByte s b with
  | some s' =>
    let next := acc.push b ((plan.multipleOf.map Prod.fst).getD 1)
    if numberPrefixSignViable next plan then some (.number e plan s' next) else none
  | none => if e.isAccepting s && numberAccepts acc plan then closeBefore b else none

/-- The bytes of a decoded scalar, one after the other. -/
def narrowAll (plan : StringEnumPlan) : List Byte → Nat × Nat × Nat → Option (Nat × Nat × Nat)
  | [], run => some run
  | b :: bs, (lo, hi, position) =>
    (plan.narrow lo hi position b).bind (fun r => narrowAll plan bs (r.1, r.2, position + 1))

def pushStringEnum (plan : StringEnumPlan) (f : StringEnumFrame P.Decoder) (b : Byte) : Option (Cursor P) :=
  if f.body = false then
    if isWs b then some (.stringEnum plan f)
    else if b = 0x22 then some (.stringEnum plan { f with body := true })
    else none
  else if b = 0x22 ∧ P.atBoundary f.decoder = true then
    if plan.containsExact f.lo f.hi f.decodedBytes then some .closed else none
  else
    match P.decode f.decoder b with
    | (.invalid, _) => none
    | (.cont, decoder) =>
      if plan.canContinue f.lo f.hi f.decodedBytes && P.pendingViable plan f.lo f.hi f.decodedBytes decoder then
        some (.stringEnum plan { f with decoder })
      else none
    | (.scalar c, decoder) =>
      (narrowAll plan (String.utf8EncodeChar c) (f.lo, f.hi, f.decodedBytes)).map (fun r =>
        .stringEnum plan { f with decoder, lo := r.1, hi := r.2.1, decodedBytes := r.2.2 })

def pushScalar (phase : ScalarPhase) (b : Byte) : Option (Cursor P) :=
  if phase = .beforeValue ∧ isWs b = true then some (.scalar phase)
  else match stepScalar phase b with
    | .cont next => some (.scalar next)
    | .startString => some (.frames P.anyString)
    | .startArray => some (.frames P.anyArray)
    | .startObject => some (.frames P.anyObject)
    | .done => closeBefore b
    | .invalid => none

def pushFrames (k : P.Frames) (b : Byte) : Option (Cursor P) :=
  (P.step k b).map (fun next => match next with
    | none => .closed
    | some k => .frames k)

/-- `route_combinator_byte`, once every branch has been given the byte. -/
def finishCombinator (kind : CombinatorKind) (nodes : List Nat) (accepting : Nat) (steps : List (Option (Cursor P)))
    (b : Byte) : Option (Cursor P) :=
  let next := steps.map (·.getD .dead)
  if combinatorBoundary kind (steps.countP Option.isSome) steps.length then
    if combinatorAccepts kind accepting steps.length then closeBefore b else none
  else if !combinatorAccepts kind (acceptingCount next) steps.length && !branchesExtend kind nodes next then none
  else some (.combinator kind nodes next)

/-- `route_negation_byte`, likewise; an inner cursor that died is pruned. -/
def finishNegation (text inner : Cursor P) (text' inner' : Option (Cursor P)) (b : Byte) : Option (Cursor P) :=
  match text', inner' with
  | none, _ => if text.accepting && !inner.accepting then closeBefore b else none
  | some text', none => some (.negation text' .dead)
  | some text', some inner' =>
    if !(text'.accepting && !inner'.accepting) && !text'.canExtendValue then none else some (.negation text' inner')

/-- The kind of instance an unevaluated frame is looking at, known from its first byte. -/
def noteInstance (tracker : Cursor P) (instanceKind : Option UnevaluatedKind) (b : Byte) : Option UnevaluatedKind :=
  match tracker, instanceKind with
  | .scalar .beforeValue, none =>
    if b = 0x7b then some .properties else if b = 0x5b then some .items else none
  | _, _ => instanceKind

/-- `route_unevaluated_byte`, likewise. -/
def finishUnevaluated (plan : UnevaluatedPlan) (scope tracker : Cursor P) (instanceKind : Option UnevaluatedKind)
    (read : List Byte) (scope' tracker' : Option (Cursor P)) (b : Byte) : Option (Cursor P) :=
  let matching := instanceKind == some plan.kind
  if matching && P.commaRefused plan read b then none
  else match scope', tracker' with
    | none, none =>
      if scope.accepting && tracker.accepting && (!matching || P.covered plan read) then closeBefore b else none
    | none, some _ => none
    | some _, none => none
    | some scope', some tracker' =>
      if matching && P.keyRefused plan read b then none
      else if tracker'.isClosed then
        if scope'.accepting && (!matching || P.covered plan (read ++ [b])) then some .closed else none
      else some (.unevaluated plan scope' tracker' instanceKind (read ++ [b]))

mutual

/-- One byte for a cursor; `none` refuses it. -/
def push : Cursor P → Byte → Option (Cursor P)
  | .dead, _ => none
  | .closed, b => closeBefore b
  | .regular e s, b => pushRegular e s b
  | .regularFrame e s, b => pushRegularFrame e s b
  | .number e plan s acc, b => pushNumber e plan s acc b
  | .stringEnum plan f, b => pushStringEnum plan f b
  | .scalar phase, b => pushScalar phase b
  | .frames k, b => pushFrames k b
  | .combinator kind nodes cursors, b => finishCombinator kind nodes (acceptingCount cursors) (pushAll cursors b) b
  | .negation text inner, b => finishNegation text inner (text.push b) (inner.push b) b
  | .unevaluated plan scope tracker instanceKind read, b =>
    finishUnevaluated plan scope tracker (noteInstance tracker instanceKind b) read (scope.push b) (tracker.push b) b

def pushAll : List (Cursor P) → Byte → List (Option (Cursor P))
  | [], _ => []
  | c :: cs, b => c.push b :: pushAll cs b

end

/-- A text is accepted: every byte is taken, and the cursor accepts at the end. -/
def accepts : Cursor P → List Byte → Bool
  | c, [] => c.accepting
  | c, b :: v => (c.push b).any (fun c => accepts c v)

end Cursor

/-! ## Obligations -/

/-- What an obligation frame does with a byte: `popped` ends the value before it. -/
inductive ObligationStep (P : Parts) where
  | advanced (cursors : List (Cursor P))
  | popped
  | rejected

/-- `route_obligation_byte`. -/
def routeObligationByte {P : Parts} (cursors : List (Cursor P)) (b : Byte) : ObligationStep P :=
  match (Cursor.pushAll cursors b).mapM id with
  | some next => .advanced next
  | none => if cursors.all Cursor.accepting then .popped else .rejected

section Start
variable (P : Parts) (d : DynamicPlan) (t : NodeTable)

/-- `resolve_runtime_node`: references are followed, entering the resource of every node on the way. -/
def resolveRuntimeNode : Nat → Nat → DynamicPlan.Scope → Option (Nat × DynamicPlan.Scope)
  | 0, _, _ => none
  | hops + 1, node, scope =>
    let scope := if d.enabled then DynamicPlan.enter scope (d.nodeResource node) else scope
    match t.node node with
    | .ref target => resolveRuntimeNode hops target scope
    | .dynamicRef initialTarget anchor => resolveRuntimeNode hops (d.resolve initialTarget anchor scope) scope
    | _ => some (node, scope)

/-- At most as many hops as there are nodes. -/
def resolved (node : Nat) (scope : DynamicPlan.Scope) : Option (Nat × DynamicPlan.Scope) :=
  resolveRuntimeNode d t (t.nodes.length + 1) node scope

/-- The fresh cursor of a node in a dynamic scope.  The fuel bounds how deep applicators nest in one another. -/
def startCursor : Nat → Nat → DynamicPlan.Scope → Option (Cursor P)
  | 0, _, _ => none
  | fuel + 1, start, outer => (resolved d t start outer).bind (fun (node, scope) =>
    match t.node node with
    | .regular e => some (.regular e e.start)
    | .number e plan => some (.number e plan e.start .new)
    | .stringEnum plan => some (.stringEnum plan ⟨false, P.newDecoder, 0, plan.memberCount, 0⟩)
    | .object _ | .array _ | .string _ => some (.frames (P.openNode (t.node node) scope))
    | .combinator plan => do
      let nodes ← plan.branches.mapM (fun b => (resolved d t b scope).map Prod.fst)
      let cursors ← plan.branches.mapM (fun b => startCursor fuel b scope)
      some (.combinator plan.kind nodes cursors)
    | .negation inner => (startCursor fuel inner scope).map (.negation (.scalar .beforeValue))
    | .unevaluated plan =>
      (startCursor fuel plan.scope scope).map (fun c => .unevaluated plan c (.scalar .beforeValue) none [])
    | .ref _ | .dynamicRef _ _ | .unsupported => none)

end Start
end MaskForge
