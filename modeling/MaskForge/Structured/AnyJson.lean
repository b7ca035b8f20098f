import MaskForge.Lib.Derivative
import MaskForge.Structured.JsonString
import MaskForge.Structured.Keys
import MaskForge.Structured.Session
/-!
# AnyJson — one unconstrained value, byte by byte

An unconstrained value is read without recursion.  Every array and every object it is inside of has a frame, and so has
the scalar, the string or the container at hand; a frame for a value starts as a scalar and is replaced when the value
turns out to be something else.  A number or a literal ends at the byte after it, which goes to the frame below.

The names of the open objects are interned into the session's key arena, where a repeated name is found when its colon
is read.  Each byte is a token of its own: what it did is committed, and a byte that is refused or fails leaves the
state as it was.  Key leases, tracked array items and the frames of schemas are left out: none is below an
unconstrained root.
-/
namespace MaskForge

/-- An open object; its names are in the session's arena. -/
structure AnyObjectState where
  phase : ObjectPhase
  key : Text
  keyDecoder : JsonStringDecoder
  properties : Nat

inductive AnyFrame where
  | scalar (phase : ScalarPhase) (bytes : Nat)
  | stringBody (decoder : JsonStringDecoder) (bytes : Nat)
  | array (phase : AnyArrayPhase) (items : Nat)
  | object (o : AnyObjectState)

/-- What a byte can run into. -/
inductive AnyLimit where
  | documentBytes
  | recursionDepth
  | numberBytes
  | stringBytes
  | arrayLength
  | undoEntries
  | keys (kind : LimitKind)
  deriving DecidableEq, Repr

structure AnyError where
  kind : AnyLimit
  observed : Nat
  limit : Nat
  deriving DecidableEq, Repr

def StructuredRuntimeError.toAny (e : StructuredRuntimeError) : AnyError := ⟨.keys e.kind, e.observed, e.limit⟩

/-- The hasher and the limits of a session.  `granted` says whether its memory and its log have room for what the n-th
byte reserves.  The session's bytes are at most the default 8 MiB, so the arena's 32-bit offsets hold them. -/
structure AnyEnv where
  keys : KeyEnv
  fits : keys.limits.maxSessionBytes < u32Size
  maxDocumentBytes : Nat
  maxDepth : Nat
  maxItems : Nat
  maxStringBytes : Nat
  maxNumberBytes : Nat
  maxUndoEntries : Nat
  granted : Nat → Bool

/-- The frames, innermost first, and the keys of the objects among them, for which the other frames stand empty. -/
structure AnyState where
  frames : List AnyFrame
  keys : KeyState
  rootClosed : Bool
  accepting : Bool
  documentBytes : Nat

/-- The effect of a byte on the frame it was given to; `popped` ends the frame's value before the byte. -/
inductive AnyStep where
  | rejected
  | advanced (s : AnyState)
  | popped (s : AnyState)

namespace AnyJson

/-- `checked_add(1)` on a `u32`. -/
def countUp (count : Nat) (kind : AnyLimit) (limit : Nat) : Except AnyError Nat :=
  if count + 1 < u32Size then .ok (count + 1) else .error ⟨kind, usizeMax, limit⟩

/-- A state whose only frame is that of a value that has not begun. -/
def initial : AnyState := ⟨[.scalar .beforeValue 0], ⟨⟨[.other], ⟨[], []⟩⟩, []⟩, false, false, 0⟩

def pushAnyChild (env : AnyEnv) (s : AnyState) : Except AnyError AnyState :=
  if env.maxDepth < s.frames.length + 1 then .error ⟨.recursionDepth, s.frames.length + 1, env.maxDepth⟩
  else .ok { s with frames := .scalar .beforeValue 0 :: s.frames, keys := s.keys.pushFrame .other }

/-- The root is closed when no frame is left. -/
def popAnyFrame (s : AnyState) (below : List AnyFrame) : AnyState :=
  { s with frames := below, keys := s.keys.popFrame, rootClosed := s.rootClosed || below.isEmpty }

def routeAnyScalarByte (env : AnyEnv) (s : AnyState) (phase : ScalarPhase) (bytes : Nat) (below : List AnyFrame)
    (byte : Byte) :
    Except AnyError AnyStep :=
  if phase = .beforeValue ∧ isWs byte = true then .ok (.advanced s)
  else match stepScalar phase byte with
    | .cont next => do
      let nextBytes ← countUp bytes .numberBytes env.maxNumberBytes
      if (match next with | .number _ => true | _ => false) = true ∧ env.maxNumberBytes < nextBytes then
        .error ⟨.numberBytes, nextBytes, env.maxNumberBytes⟩
      else .ok (.advanced { s with frames := .scalar next nextBytes :: below })
    | .startString => .ok (.advanced { s with frames := .stringBody .new 0 :: below })
    | .startArray => .ok (.advanced { s with frames := .array .beforeFirstOrClose 0 :: below })
    | .startObject => .ok (.advanced { s with
        frames := .object ⟨.beforeFirstKeyOrClose, [], .new, 0⟩ :: below
        keys := s.keys.popFrame.openObject [] })
    | .done => .ok (.popped (popAnyFrame s below))
    | .invalid => .ok .rejected

def routeAnyStringByte (env : AnyEnv) (s : AnyState) (decoder : JsonStringDecoder) (bytes : Nat) (below : List AnyFrame)
    (byte : Byte) : Except AnyError AnyStep :=
  if byte = 0x22 ∧ decoder.atBoundary = true then .ok (.advanced (popAnyFrame s below))
  else match decoder.push byte with
    | (.invalid, _) => .ok .rejected
    | (_, nextDecoder) => do
      let nextBytes ← countUp bytes .stringBytes env.maxStringBytes
      if env.maxStringBytes < nextBytes then .error ⟨.stringBytes, nextBytes, env.maxStringBytes⟩
      else .ok (.advanced { s with frames := .stringBody nextDecoder nextBytes :: below })

/-- `Popped` by the byte that starts a value counts as taken. -/
def started : AnyStep → AnyStep
  | .popped s => .advanced s
  | step => step

/-- The item's frame is a new scalar, so `route_any_byte` hands the byte to it as one. -/
def startAnyItem (env : AnyEnv) (s : AnyState) (items : Nat) (below : List AnyFrame) (byte : Byte) :
    Except AnyError AnyStep := do
  if 0 < env.maxItems ∧ env.maxItems ≤ items then .error ⟨.arrayLength, items, env.maxItems⟩
  else
    let nextItems ← countUp items .arrayLength env.maxItems
    let s ← pushAnyChild env { s with frames := .array .afterValue nextItems :: below }
    (routeAnyScalarByte env s .beforeValue 0 (.array .afterValue nextItems :: below) byte).map started

def routeAnyArrayByte (env : AnyEnv) (s : AnyState) (phase : AnyArrayPhase) (items : Nat) (below : List AnyFrame)
    (byte : Byte) :
    Except AnyError AnyStep :=
  match phase with
  | .beforeFirstOrClose =>
    if isWs byte then .ok (.advanced s)
    else if byte = 0x5d then .ok (.advanced (popAnyFrame s below))
    else startAnyItem env s items below byte
  | .afterValue =>
    if isWs byte then .ok (.advanced s)
    else if byte = 0x2c then .ok (.advanced { s with frames := .array .afterComma items :: below })
    else if byte = 0x5d then .ok (.advanced (popAnyFrame s below))
    else .ok .rejected
  | .afterComma => if isWs byte then .ok (.advanced s) else startAnyItem env s items below byte

def setAnyObjectPhase (s : AnyState) (o : AnyObjectState) (below : List AnyFrame) (phase : ObjectPhase) : AnyState :=
  { s with frames := .object { o with phase } :: below }

def startAnyKey (s : AnyState) (o : AnyObjectState) (below : List AnyFrame) : AnyState :=
  setAnyObjectPhase s { o with key := [], keyDecoder := .new } below .inKey

def pushAnyKeyByte (env : AnyEnv) (s : AnyState) (o : AnyObjectState) (below : List AnyFrame) (byte : Byte) :
    Except AnyError AnyStep :=
  if byte = 0x22 ∧ o.keyDecoder.atBoundary = true then
    .ok (.advanced (setAnyObjectPhase s o below .afterKeyBeforeColon))
  else match o.keyDecoder.push byte with
    | (.invalid, _) => .ok .rejected
    | (.cont, keyDecoder) => .ok (.advanced { s with frames := .object { o with keyDecoder } :: below })
    | (.scalar c, keyDecoder) =>
      let nextLen := (textBytes o.key).length + (String.utf8EncodeChar c).length
      if env.keys.limits.maxKeyBytes < nextLen then .error ⟨.keys .keyBytes, nextLen, env.keys.limits.maxKeyBytes⟩
      else .ok (.advanced { s with frames := .object { o with key := o.key ++ [c], keyDecoder } :: below })

/-- A name the object has is refused; another one is interned. -/
def resolveAnyColon (env : AnyEnv) (s : AnyState) (o : AnyObjectState) (below : List AnyFrame) :
    Except AnyError AnyStep :=
  match s.keys.resolveKey env.keys (textBytes o.key) true with
  | .error e => .error e.toAny
  | .ok none => .ok .rejected
  | .ok (some (keys, _)) => do
    let properties ← countUp o.properties (.keys .propertyCount) env.keys.limits.maxProperties
    if env.keys.limits.maxProperties < properties then
      .error ⟨.keys .propertyCount, properties, env.keys.limits.maxProperties⟩
    else .ok (.advanced (setAnyObjectPhase { s with keys } { o with properties } below .afterColonBeforeValue))

/-- As in `startAnyItem`, the member's frame is a new scalar. -/
def startAnyValue (env : AnyEnv) (s : AnyState) (o : AnyObjectState) (below : List AnyFrame) (byte : Byte) :
    Except AnyError AnyStep := do
  let held := .object { o with phase := .afterValueBeforeCommaOrClose } :: below
  let s ← pushAnyChild env (setAnyObjectPhase s o below .afterValueBeforeCommaOrClose)
  (routeAnyScalarByte env s .beforeValue 0 held byte).map started

/-- An object frame starts past its brace, so no frame is in the phase `start`. -/
def routeAnyObjectByte (env : AnyEnv) (s : AnyState) (o : AnyObjectState) (below : List AnyFrame) (byte : Byte) :
    Except AnyError AnyStep :=
  match o.phase with
  | .start => .ok .rejected
  | .beforeFirstKeyOrClose =>
    if isWs byte then .ok (.advanced s)
    else if byte = 0x22 then .ok (.advanced (startAnyKey s o below))
    else if byte = 0x7d then .ok (.advanced (popAnyFrame s below))
    else .ok .rejected
  | .inKey => pushAnyKeyByte env s o below byte
  | .afterKeyBeforeColon =>
    if isWs byte then .ok (.advanced s)
    else if byte ≠ 0x3a then .ok .rejected
    else resolveAnyColon env s o below
  | .afterColonBeforeValue => if isWs byte then .ok (.advanced s) else startAnyValue env s o below byte
  | .afterValueBeforeCommaOrClose =>
    if isWs byte then .ok (.advanced s)
    else if byte = 0x2c then .ok (.advanced (setAnyObjectPhase s o below .afterCommaBeforeKey))
    else if byte = 0x7d then .ok (.advanced (popAnyFrame s below))
    else .ok .rejected
  | .afterCommaBeforeKey =>
    if isWs byte then .ok (.advanced s)
    else if byte ≠ 0x22 then .ok .rejected
    else .ok (.advanced (startAnyKey s o below))

/-- The byte goes to the innermost frame. -/
def routeAnyByte (env : AnyEnv) (s : AnyState) (byte : Byte) : Except AnyError AnyStep :=
  match s.frames with
  | [] => .ok .rejected
  | .scalar phase bytes :: below => routeAnyScalarByte env s phase bytes below byte
  | .stringBody decoder bytes :: below => routeAnyStringByte env s decoder bytes below byte
  | .array phase items :: below => routeAnyArrayByte env s phase items below byte
  | .object o :: below => routeAnyObjectByte env s o below byte

/-- The loop of `route_byte`, at most once for each frame: a value that ends before the byte leaves it to the
frame below. -/
def routeLoop (env : AnyEnv) (byte : Byte) : Nat → AnyState → Except AnyError (Option AnyState)
  | 0, _ => .ok none
  | n + 1, s => do match ← routeAnyByte env s byte with
    | .rejected => .ok none
    | .advanced s => .ok (some s)
    | .popped s => if s.rootClosed then .ok (if isWs byte then some s else none) else routeLoop env byte n s

def routeByte (env : AnyEnv) (s : AnyState) (byte : Byte) : Except AnyError (Option AnyState) :=
  if s.rootClosed then .ok (if isWs byte then some s else none) else routeLoop env byte s.frames.length s

/-- `recompute_accepting`. -/
def accepts (s : AnyState) : Bool :=
  s.rootClosed || match s.frames with
    | [] => true
    | [.scalar phase _] => scalarIsComplete phase
    | _ => false

/-- `none` refuses the byte; the state stays as it was. -/
def tryPushByte (env : AnyEnv) (s : AnyState) (byte : Byte) : Except AnyError (Option AnyState) :=
  let nextDocBytes := s.documentBytes + 1
  if env.maxDocumentBytes < nextDocBytes then .error ⟨.documentBytes, nextDocBytes, env.maxDocumentBytes⟩
  else if env.granted nextDocBytes = false then .error ⟨.undoEntries, usizeMax, env.maxUndoEntries⟩
  else do
    let routed ← routeByte env { s with documentBytes := nextDocBytes } byte
    .ok (routed.map fun s => { s with accepting := accepts s })

/-- A byte that is a token of its own: what it did is committed. -/
def advance (env : AnyEnv) (s : AnyState) (byte : Byte) : Except AnyError (Option AnyState) :=
  (tryPushByte env s byte).map (Option.map fun s => { s with keys := s.keys.commit })

/-- The state after some bytes. -/
def run (env : AnyEnv) (s : AnyState) (bytes : List Byte) : Except AnyError (Option AnyState) :=
  Derivative.run (advance env) s bytes

end AnyJson
end MaskForge
