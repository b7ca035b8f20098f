import MaskForge.Structured.Cursor
/-!
# Session — the frame stack of the document being read

A session holds a frame for every container the document is inside of, and one for the value at hand.  A byte goes to
the frame on top; a frame whose value has ended before it is taken off, and the byte goes to the frame below.  The
arrays below the frame that takes a byte are shown it, since they follow their item for `uniqueItems` and `contains`,
and so are the objects with dependent schemas.

The phases of the containers, the regular values, the numbers and the obligations are followed here.  What a container
knows beside its phase, and what the other frames do, is an `Interior`.  Resource limits are not part of the model.
-/
namespace MaskForge

inductive ObjectPhase where
  | start
  | beforeFirstKeyOrClose
  | inKey
  | afterKeyBeforeColon
  | afterColonBeforeValue
  | afterValueBeforeCommaOrClose
  | afterCommaBeforeKey
  deriving DecidableEq, Repr

inductive ArrayPhase where
  | start
  | beforeFirstItemOrClose
  | afterValueBeforeCommaOrClose
  | afterCommaBeforeValue
  deriving DecidableEq, Repr

inductive AnyArrayPhase where
  | beforeFirstOrClose
  | afterValue
  | afterComma
  deriving DecidableEq, Repr

/-- What the value of a member, or an item, is held to. -/
inductive ValueObligations where
  | anyJson
  | schemas (nodes : List Nat)
  deriving DecidableEq, Repr

/-- What a frame that is neither a container, nor a number, nor regular does with a byte: `closed` is its own last byte,
`popped` ends the value before it. -/
inductive LeafStep (α : Type) where
  | rejected
  | advanced (leaf : α)
  | closed
  | popped

/-- What containers know beside their phases.  `none` refuses. -/
structure Interior where
  Object : Type
  Array : Type
  AnyObject : Type
  /-- Strings, string enums, combinators, negations and unevaluated frames. -/
  Leaf : Type
  newObject : ObjectPlan → Object
  newArray : ArrayPlan → Array
  newAnyObject : AnyObject
  newLeaf : NodePlan → DynamicPlan.Scope → Leaf
  anyString : Leaf
  routeLeaf : Leaf → Byte → LeafStep Leaf
  /-- `object_key_prefix_viable` on the empty key is not `Some(false)`. -/
  keyViable : Object → Bool
  startKey : Object → Option Object
  /-- `push_key_byte`, and whether the byte ended the key. -/
  pushKeyByte : Object → Byte → Option (Object × Bool)
  resolveAtColon : Object → Option Object
  /-- The resolved value, taken, and the object with one member more. -/
  takeResolved : Object → Option (ValueObligations × Object)
  /-- `max_properties` leaves room. -/
  roomForMember : Object → Bool
  closeObject : Object → Bool
  /-- `feed_object_dependencies`; `none` where a triggered schema has died. -/
  feedDependencies : Object → Byte → Option Object
  /-- `min_items` is within the finite unique capacity. -/
  capacityFits : Array → Bool
  nextItemViable : Array → Bool
  /-- `push_array_item`: the item's schema, and the array with the item counted and followed. -/
  pushItem : Array → Option (ValueObligations × Array)
  closeArray : Array → Bool
  feedItem : Array → Byte → Option Array
  /-- `finish_array_item_tracker`, where an item is followed. -/
  finishItem : Array → Option Array
  /-- `tracked_canonical_item_is_closed`. -/
  itemClosed : Array → Bool
  /-- `array_futures_satisfiable`, for one array. -/
  futures : Array → Bool
  startAnyKey : AnyObject → Option AnyObject
  pushAnyKeyByte : AnyObject → Byte → Option (AnyObject × Bool)
  resolveAnyColon : AnyObject → Option AnyObject

namespace Session

/-- A frame.  Objects and arrays keep their dynamic scope for the values inside. -/
inductive Frame (P : Parts) (I : Interior) where
  | regular (engine : RefEngine) (state : Nat)
  | number (engine : RefEngine) (plan : NumberPlan) (state : Nat) (accumulator : NumberAccumulator)
  | obligation (cursors : List (Cursor P))
  | object (phase : ObjectPhase) (scope : DynamicPlan.Scope) (o : I.Object)
  | array (phase : ArrayPhase) (scope : DynamicPlan.Scope) (a : I.Array)
  | anyScalar (phase : ScalarPhase)
  | anyArray (phase : AnyArrayPhase)
  | anyObject (phase : ObjectPhase) (o : I.AnyObject)
  | leaf (l : I.Leaf)

/-- What the frame on top does with a byte.  `closing` is a frame's own last byte, `popped` ends its value before the
byte, and `opened` leaves the byte to a new frame. -/
inductive FrameStep (P : Parts) (I : Interior) where
  | rejected
  | took (f : Frame P I)
  | closing (f : Frame P I)
  | popped
  | opened (child f : Frame P I)

section
variable {P : Parts} {I : Interior} (d : DynamicPlan) (t : NodeTable) (fuel : Nat)

/-- `push_child`. -/
def pushChild (node : Nat) (scope : DynamicPlan.Scope) : Option (Frame P I) :=
  (resolved d t node scope).bind (fun (node, scope) =>
    match t.node node with
    | .regular e => some (.regular e e.start)
    | .number e plan => some (.number e plan e.start .new)
    | .object plan => some (.object .start scope (I.newObject plan))
    | .array plan => some (.array .start scope (I.newArray plan))
    | .string _ | .stringEnum _ | .combinator _ | .negation _ | .unevaluated _ =>
      some (.leaf (I.newLeaf (t.node node) scope))
    | .ref _ | .dynamicRef _ _ | .unsupported => none)

/-- `push_obligation_child`. -/
def pushObligationChild (nodes : List Nat) (scope : DynamicPlan.Scope) : Option (Frame P I) :=
  (nodes.mapM (fun node => startCursor P d t fuel node scope)).map .obligation

/-- The frame of a value: of its only schema, or of several at once. -/
def pushValue (target : ValueObligations) (scope : DynamicPlan.Scope) : Option (Frame P I) :=
  match target with
  | .anyJson => some (.anyScalar .beforeValue)
  | .schemas [node] => pushChild d t node scope
  | .schemas nodes => pushObligationChild d t fuel nodes scope

/-- `route_object_byte`. -/
def routeObjectByte (phase : ObjectPhase) (scope : DynamicPlan.Scope) (o : I.Object) (b : Byte) : FrameStep P I :=
  match phase with
  | .start =>
    if isWs b then .took (.object .start scope o)
    else if b = 0x7b then .took (.object .beforeFirstKeyOrClose scope o)
    else .rejected
  | .beforeFirstKeyOrClose =>
    if isWs b then .took (.object .beforeFirstKeyOrClose scope o)
    else if b = 0x22 then
      if !I.keyViable o then .rejected
      else match I.startKey o with
        | some o => .took (.object .inKey scope o)
        | none => .rejected
    else if b = 0x7d then .closing (.object .beforeFirstKeyOrClose scope o)
    else .rejected
  | .inKey =>
    match I.pushKeyByte o b with
    | some (o, true) => .took (.object .afterKeyBeforeColon scope o)
    | some (o, false) => .took (.object .inKey scope o)
    | none => .rejected
  | .afterKeyBeforeColon =>
    if isWs b then .took (.object .afterKeyBeforeColon scope o)
    else if b ≠ 0x3a then .rejected
    else match I.resolveAtColon o with
      | some o => .took (.object .afterColonBeforeValue scope o)
      | none => .rejected
  | .afterColonBeforeValue =>
    if isWs b then .took (.object .afterColonBeforeValue scope o)
    else match I.takeResolved o with
      | none => .rejected
      | some (target, o) => match pushValue d t fuel target scope with
        | some child => .opened child (.object .afterValueBeforeCommaOrClose scope o)
        | none => .rejected
  | .afterValueBeforeCommaOrClose =>
    if isWs b then .took (.object .afterValueBeforeCommaOrClose scope o)
    else if b = 0x2c then
      if !I.roomForMember o || !I.keyViable o then .rejected
      else .took (.object .afterCommaBeforeKey scope o)
    else if b = 0x7d then .closing (.object .afterValueBeforeCommaOrClose scope o)
    else .rejected
  | .afterCommaBeforeKey =>
    if isWs b then .took (.object .afterCommaBeforeKey scope o)
    else if b ≠ 0x22 then .rejected
    else if !I.keyViable o then .rejected
    else match I.startKey o with
      | some o => .took (.object .inKey scope o)
      | none => .rejected

/-- `push_array_item`. -/
def pushArrayItem (scope : DynamicPlan.Scope) (a : I.Array) : FrameStep P I :=
  match I.pushItem a with
  | none => .rejected
  | some (target, a) => match pushValue d t fuel target scope with
    | some child => .opened child (.array .afterValueBeforeCommaOrClose scope a)
    | none => .rejected

/-- `route_array_byte`. -/
def routeArrayByte (phase : ArrayPhase) (scope : DynamicPlan.Scope) (a : I.Array) (b : Byte) : FrameStep P I :=
  match phase with
  | .start =>
    if !I.capacityFits a then .rejected
    else if isWs b then .took (.array .start scope a)
    else if b = 0x5b then .took (.array .beforeFirstItemOrClose scope a)
    else .rejected
  | .beforeFirstItemOrClose =>
    if isWs b then .took (.array .beforeFirstItemOrClose scope a)
    else if b = 0x5d then .closing (.array .beforeFirstItemOrClose scope a)
    else pushArrayItem d t fuel scope a
  | .afterValueBeforeCommaOrClose =>
    if isWs b then .took (.array .afterValueBeforeCommaOrClose scope a)
    else if b = 0x2c then
      if !I.nextItemViable a then .rejected else .took (.array .afterCommaBeforeValue scope a)
    else if b = 0x5d then .closing (.array .afterValueBeforeCommaOrClose scope a)
    else .rejected
  | .afterCommaBeforeValue =>
    if isWs b then .took (.array .afterCommaBeforeValue scope a) else pushArrayItem d t fuel scope a

/-- `route_any_scalar_byte`; a string, an array or an object takes the scalar's place. -/
def routeAnyScalarByte (phase : ScalarPhase) (b : Byte) : FrameStep P I :=
  if phase = .beforeValue ∧ isWs b = true then .took (.anyScalar phase)
  else match stepScalar phase b with
    | .cont next => .took (.anyScalar next)
    | .startString => .took (.leaf I.anyString)
    | .startArray => .took (.anyArray .beforeFirstOrClose)
    | .startObject => .took (.anyObject .beforeFirstKeyOrClose I.newAnyObject)
    | .done => .popped
    | .invalid => .rejected

/-- `route_any_array_byte`. -/
def routeAnyArrayByte (phase : AnyArrayPhase) (b : Byte) : FrameStep P I :=
  match phase with
  | .beforeFirstOrClose =>
    if isWs b then .took (.anyArray .beforeFirstOrClose)
    else if b = 0x5d then .closing (.anyArray .beforeFirstOrClose)
    else .opened (.anyScalar .beforeValue) (.anyArray .afterValue)
  | .afterValue =>
    if isWs b then .took (.anyArray .afterValue)
    else if b = 0x2c then .took (.anyArray .afterComma)
    else if b = 0x5d then .closing (.anyArray .afterValue)
    else .rejected
  | .afterComma =>
    if isWs b then .took (.anyArray .afterComma) else .opened (.anyScalar .beforeValue) (.anyArray .afterValue)

/-- `route_any_object_byte`; the opening brace has been read. -/
def routeAnyObjectByte (phase : ObjectPhase) (o : I.AnyObject) (b : Byte) : FrameStep P I :=
  match phase with
  | .start => .rejected
  | .beforeFirstKeyOrClose =>
    if isWs b then .took (.anyObject .beforeFirstKeyOrClose o)
    else if b = 0x22 then match I.startAnyKey o with
      | some o => .took (.anyObject .inKey o)
      | none => .rejected
    else if b = 0x7d then .closing (.anyObject .beforeFirstKeyOrClose o)
    else .rejected
  | .inKey =>
    match I.pushAnyKeyByte o b with
    | some (o, true) => .took (.anyObject .afterKeyBeforeColon o)
    | some (o, false) => .took (.anyObject .inKey o)
    | none => .rejected
  | .afterKeyBeforeColon =>
    if isWs b then .took (.anyObject .afterKeyBeforeColon o)
    else if b ≠ 0x3a then .rejected
    else match I.resolveAnyColon o with
      | some o => .took (.anyObject .afterColonBeforeValue o)
      | none => .rejected
  | .afterColonBeforeValue =>
    if isWs b then .took (.anyObject .afterColonBeforeValue o)
    else .opened (.anyScalar .beforeValue) (.anyObject .afterValueBeforeCommaOrClose o)
  | .afterValueBeforeCommaOrClose =>
    if isWs b then .took (.anyObject .afterValueBeforeCommaOrClose o)
    else if b = 0x2c then .took (.anyObject .afterCommaBeforeKey o)
    else if b = 0x7d then .closing (.anyObject .afterValueBeforeCommaOrClose o)
    else .rejected
  | .afterCommaBeforeKey =>
    if isWs b then .took (.anyObject .afterCommaBeforeKey o)
    else if b ≠ 0x22 then .rejected
    else match I.startAnyKey o with
      | some o => .took (.anyObject .inKey o)
      | none => .rejected

/-- The arm of `route_byte` for the frame on top. -/
def Frame.step (f : Frame P I) (b : Byte) : FrameStep P I :=
  match f with
  | .regular e s => match e.stepByte s b with
    | some s' => .took (.regular e s')
    | none => if e.isAccepting s then .popped else .rejected
  | .number e plan s acc => match e.stepByte s b with
    | some s' =>
      let next := acc.push b ((plan.multipleOf.map Prod.fst).getD 1)
      if numberPrefixSignViable next plan then .took (.number e plan s' next) else .rejected
    | none => if e.isAccepting s && numberAccepts acc plan then .popped else .rejected
  | .obligation cursors => match routeObligationByte cursors b with
    | .advanced next => .took (.obligation next)
    | .popped => .popped
    | .rejected => .rejected
  | .object phase scope o => routeObjectByte d t fuel phase scope o b
  | .array phase scope a => routeArrayByte d t fuel phase scope a b
  | .anyScalar phase => routeAnyScalarByte phase b
  | .anyArray phase => routeAnyArrayByte phase b
  | .anyObject phase o => routeAnyObjectByte phase o b
  | .leaf l => match I.routeLeaf l b with
    | .rejected => .rejected
    | .advanced l => .took (.leaf l)
    | .closed => .closing (.leaf l)
    | .popped => .popped

/-! ## Observers -/

/-- `feed_object_dependencies`, for the object that takes a byte itself. -/
def Frame.feedOwn (b : Byte) : Frame P I → Option (Frame P I)
  | .object phase scope o => (I.feedDependencies o b).map (.object phase scope)
  | f => some f

/-- A frame below the one that takes a byte is shown it. -/
def Frame.observe (b : Byte) : Frame P I → Option (Frame P I)
  | .array phase scope a => (I.feedItem a b).map (.array phase scope)
  | f => f.feedOwn b

/-- `record_item_byte`. -/
def recordItemByte (b : Byte) (f : Frame P I) (below : List (Frame P I)) : Option (Frame P I × List (Frame P I)) :=
  (f.feedOwn b).bind (fun f => (below.mapM (Frame.observe b)).map (fun below => (f, below)))

/-- `finish_tracked_item_if_direct_child`: only an array follows the value just above it. -/
def finishTrackedItem : List (Frame P I) → Option (List (Frame P I))
  | .array phase scope a :: below => (I.finishItem a).map (fun a => .array phase scope a :: below)
  | frames => some frames

/-- A regular value that accepts ends where nothing but whitespace can follow, or where the item is a whole value. -/
def Frame.ends (below : List (Frame P I)) : Frame P I → Bool
  | .regular e s => e.isAccepting s && ((match below with
      | .array _ _ a :: _ => I.itemClosed a
      | _ => false) || e.onlyTrailingWhitespace s)
  | _ => false

/-- `close_object` and `close_array`, but for the item they finish. -/
def Frame.mayClose : Frame P I → Bool
  | .object _ _ o => I.closeObject o
  | .array _ _ a => I.closeArray a
  | _ => true

/-! ## Routing -/

/-- The frame has handed the value it is at to the frame above it. -/
def Frame.holds : Frame P I → Bool
  | .object .afterValueBeforeCommaOrClose _ _ | .array .afterValueBeforeCommaOrClose _ _ => true
  | .anyArray .afterValue | .anyObject .afterValueBeforeCommaOrClose _ => true
  | _ => false

/-- Frames that open a value without reading a byte weigh more than the two frames they leave. -/
def Frame.weight : Frame P I → Nat
  | .object .afterColonBeforeValue _ _ | .anyObject .afterColonBeforeValue _ => 3
  | .array .beforeFirstItemOrClose _ _ | .array .afterCommaBeforeValue _ _ => 3
  | .anyArray .beforeFirstOrClose | .anyArray .afterComma => 3
  | _ => 1

def weight (frames : List (Frame P I)) : Nat := (frames.map Frame.weight).sum

theorem Frame.weight_pos (f : Frame P I) : 0 < f.weight := by
  unfold Frame.weight
  split <;> decide

theorem Frame.weight_of_holds {f : Frame P I} (h : f.holds = true) : f.weight = 1 := by
  unfold Frame.holds at h
  split at h
  all_goals first | rfl | cases h

variable {d t fuel}

theorem pushChild_weight {node : Nat} {scope : DynamicPlan.Scope} {f : Frame P I}
    (h : pushChild d t node scope = some f) :
    f.weight = 1 := by
  unfold pushChild at h
  cases hres : resolved d t node scope with
  | none =>
    rw [hres] at h
    cases h
  | some r =>
    rw [hres, Option.bind_some] at h
    cases hn : t.node r.1 with
    | ref | dynamicRef | unsupported => simp [hn] at h
    | regular | number | object | array | string | stringEnum | combinator | negation | unevaluated =>
      simp only [hn, Option.some.injEq] at h
      rw [← h]
      rfl

theorem pushValue_weight {target : ValueObligations} {scope : DynamicPlan.Scope} {f : Frame P I}
    (h : pushValue d t fuel target scope = some f) : f.weight = 1 := by
  unfold pushValue at h
  split at h
  · cases h
    rfl
  · exact pushChild_weight h
  · obtain ⟨cursors, -, rfl⟩ := Option.map_eq_some_iff.1 h
    rfl

/-- **A frame opens a value from a phase that waits for one**, and is left holding it. -/
theorem Frame.step_opened {f child f' : Frame P I} {b : Byte} (h : f.step d t fuel b = .opened child f') :
    f.weight = 3 ∧ child.weight = 1 ∧ f'.holds = true := by
  unfold Frame.step at h
  split at h
  · split at h
    · cases h
    · split at h <;> cases h
  · split at h
    · simp only at h
      split at h <;> cases h
    · split at h <;> cases h
  · split at h <;> cases h
  · rename_i phase scope o
    unfold routeObjectByte at h
    cases phase with
    | afterColonBeforeValue =>
      simp only at h
      split at h
      · cases h
      · split at h
        · cases h
        · split at h
          · rename_i hpush
            cases h
            exact ⟨rfl, pushValue_weight hpush, rfl⟩
          · cases h
    | start | beforeFirstKeyOrClose | inKey | afterKeyBeforeColon | afterValueBeforeCommaOrClose |
        afterCommaBeforeKey =>
      simp only at h
      repeat' split at h
      all_goals cases h
  · rename_i phase scope a
    have hitem : pushArrayItem d t fuel scope a = .opened child f' → child.weight = 1 ∧ f'.holds = true := by
      intro h
      unfold pushArrayItem at h
      split at h
      · cases h
      · split at h
        · rename_i hpush
          cases h
          exact ⟨pushValue_weight hpush, rfl⟩
        · cases h
    unfold routeArrayByte at h
    cases phase with
    | beforeFirstItemOrClose =>
      simp only at h
      split at h
      · cases h
      · split at h
        · cases h
        · exact ⟨rfl, hitem h⟩
    | afterCommaBeforeValue =>
      simp only at h
      split at h
      · cases h
      · exact ⟨rfl, hitem h⟩
    | start | afterValueBeforeCommaOrClose =>
      simp only at h
      repeat' split at h
      all_goals cases h
  · unfold routeAnyScalarByte at h
    split at h
    · cases h
    · split at h <;> cases h
  · rename_i phase
    unfold routeAnyArrayByte at h
    cases phase with
    | beforeFirstOrClose | afterValue | afterComma =>
      simp only at h
      repeat' split at h
      all_goals cases h
      all_goals exact ⟨rfl, rfl, rfl⟩
  · rename_i phase o
    unfold routeAnyObjectByte at h
    cases phase with
    | afterColonBeforeValue =>
      simp only at h
      split at h <;> cases h
      exact ⟨rfl, rfl, rfl⟩
    | start | beforeFirstKeyOrClose | inKey | afterKeyBeforeColon | afterValueBeforeCommaOrClose |
        afterCommaBeforeKey =>
      simp only at h
      repeat' split at h
      all_goals cases h
  · split at h <;> cases h

theorem finishTrackedItem_weight {below below' : List (Frame P I)} (h : finishTrackedItem below = some below') :
    weight below' = weight below := by
  unfold finishTrackedItem at h
  split at h
  · obtain ⟨a, -, rfl⟩ := Option.map_eq_some_iff.1 h
    rename_i phase _ _ _
    cases phase <;> rfl
  · cases h
    rfl

variable (d t fuel)

/-- `route_byte`: the stack after the byte, empty when the document's value is over. -/
def routeByte (b : Byte) : List (Frame P I) → Option (List (Frame P I))
  | [] => none
  | f :: below =>
    match _hstep : f.step d t fuel b with
    | .rejected => none
    | .took f' => (recordItemByte b f' below).bind (fun (f', below) =>
        if f'.ends below then finishTrackedItem below else some (f' :: below))
    | .closing f' => (recordItemByte b f' below).bind (fun (f', below) =>
        if f'.mayClose then finishTrackedItem below else none)
    | .popped => match _hpop : finishTrackedItem below with
      | none => none
      | some [] => if isWs b then some [] else none
      | some (g :: below) => routeByte b (g :: below)
    | .opened child f' => routeByte b (child :: f' :: below)
termination_by frames => weight frames
decreasing_by
  · have hw := finishTrackedItem_weight _hpop
    have hpos := f.weight_pos
    simp only [weight, List.map_cons, List.sum_cons] at hw ⊢
    omega
  · obtain ⟨h, hchild, hholds⟩ := Frame.step_opened _hstep
    have hf' := Frame.weight_of_holds hholds
    simp only [weight, List.map_cons, List.sum_cons]
    omega

variable {d t fuel}

end

end Session

/-- `StructuredState`, by what decides the bytes it takes. -/
structure Session (P : Parts) (I : Interior) where
  dead : Bool
  rootClosed : Bool
  frames : List (Session.Frame P I)

namespace Session
variable {P : Parts} {I : Interior} (d : DynamicPlan) (t : NodeTable) (fuel : Nat)

/-- `array_futures_satisfiable`. -/
def arrayFuturesSatisfiable (frames : List (Frame P I)) : Bool :=
  frames.all (fun f => match f with
    | .array _ _ a => I.futures a
    | _ => true)

/-- A fresh session at a node. -/
def new (node : Nat) (scope : DynamicPlan.Scope) : Option (Session P I) :=
  (pushChild d t node scope).map (fun f => ⟨false, false, [f]⟩)

/-- `try_push_byte_for_mask`; `none` is `Ok(false)` or an error, and the state is as it was. -/
def tryPushByteForMask (s : Session P I) (b : Byte) : Option (Session P I) :=
  if s.rootClosed then
    if isWs b && !s.dead && arrayFuturesSatisfiable s.frames then some s else none
  else (routeByte d t fuel b s.frames).bind (fun frames =>
    if !s.dead && arrayFuturesSatisfiable frames then some { s with frames, rootClosed := frames.isEmpty } else none)

end Session
end MaskForge
