import MaskForge.Structured.CanonicalValue
/-!
# CanonicalDraft — a value that is being read, without its storage

The builder's machine on the values themselves: the open frames hold the bytes and the values read so far, the
innermost first. On every spelling of a value it ends with the canonical value.
-/
namespace MaskForge

open NumberForm (NumberText)

/-- Where an object is. -/
inductive KeyPhase where
  | keyOrClose
  | colon (key : List Byte)
  | value (key : List Byte)

/-- An open frame with what it has read: the bytes of a scalar, the decoded bytes of a string, items, members. -/
inductive Part where
  | scalar (phase : ScalarPhase) (text : List Byte)
  | str (decoder : JsonStringDecoder) (text : List Byte) (asKey : Bool)
  | array (items : List CanonicalValue)
  | object (phase : KeyPhase) (members : List (List Byte × CanonicalValue))

def Part.valueStart : Part := .scalar .beforeValue []

structure Draft where
  parts : List Part
  root : Option CanonicalValue

namespace Draft

def start : Draft := ⟨[.valueStart], none⟩

/-- A value that is complete: the item itself, or a part of what is innermost. -/
def attach (v : CanonicalValue) : List Part → Option Draft
  | [] => some ⟨[], some v⟩
  | .array items :: below => some ⟨.array (items ++ [v]) :: below, none⟩
  | .object (.value key) members :: below => some ⟨.object .keyOrClose (members ++ [(key, v)]) :: below, none⟩
  | _ => none

def attachKey (key : List Byte) : List Part → Option Draft
  | .object _ members :: below => some ⟨.object (.colon key) members :: below, none⟩
  | _ => none

/-- The value of a scalar that is complete. -/
def scalarValue : ScalarPhase → List Byte → Option CanonicalValue
  | .number _, text => (NumberForm.finishNumber text).toOption.map .number
  | .literalDone, text =>
    if text = literalTrue then some (.bool true)
    else if text = literalFalse then some (.bool false)
    else if text = literalNull then some .null
    else none
  | _, _ => none

def used (o : Option Draft) : Option (Bool × Draft) := o.map fun d => (true, d)

def scalarTurn (byte : Byte) (phase : ScalarPhase) (text : List Byte) (below : List Part) : Option (Bool × Draft) :=
  match stepScalar phase byte with
  | .cont next => some (true, ⟨.scalar next (text ++ [byte]) :: below, none⟩)
  | .startString => some (true, ⟨.str .new [] false :: below, none⟩)
  | .startArray => some (true, ⟨.array [] :: below, none⟩)
  | .startObject => some (true, ⟨.object .keyOrClose [] :: below, none⟩)
  | .done => do
    let v ← scalarValue phase text
    let d ← attach v below
    return (d.root.isSome, d)
  | .invalid => none

def strTurn (byte : Byte) (decoder : JsonStringDecoder) (text : List Byte) (asKey : Bool) (below : List Part) :
    Option (Bool × Draft) :=
  if byte = 0x22 ∧ decoder.atBoundary = true then used (if asKey then attachKey text below
    else attach (.string text) below)
  else match (decoder.push byte).1 with
    | .cont => some (true, ⟨.str (decoder.push byte).2 text asKey :: below, none⟩)
    | .scalar c => some (true, ⟨.str (decoder.push byte).2 (text ++ String.utf8EncodeChar c) asKey :: below, none⟩)
    | .invalid => none

def arrayTurn (byte : Byte) (items : List CanonicalValue) (below : List Part) : Option (Bool × Draft) :=
  if isWs byte ∨ byte = 0x2c then some (true, ⟨.array items :: below, none⟩)
  else if byte = 0x5d then used (attach (.array items) below)
  else some (false, ⟨.valueStart :: .array items :: below, none⟩)

def objectTurn (byte : Byte) (phase : KeyPhase) (members : List (List Byte × CanonicalValue)) (below : List Part) :
    Option (Bool × Draft) :=
  match phase with
  | .keyOrClose =>
    if isWs byte ∨ byte = 0x2c then some (true, ⟨.object .keyOrClose members :: below, none⟩)
    else if byte = 0x22 then some (true, ⟨.str .new [] true :: .object .keyOrClose members :: below, none⟩)
    else if byte = 0x7d then used (attach (CanonicalValue.objectOf members) below)
    else none
  | .colon key =>
    if isWs byte then some (true, ⟨.object (.colon key) members :: below, none⟩)
    else if byte ≠ 0x3a then none
    else some (true, ⟨.object (.value key) members :: below, none⟩)
  | .value key =>
    if isWs byte then some (true, ⟨.object (.value key) members :: below, none⟩)
    else some (false, ⟨.valueStart :: .object (.value key) members :: below, none⟩)

/-- A byte for the innermost frame; whether it is used up. -/
def turn (byte : Byte) (d : Draft) : Option (Bool × Draft) :=
  match d.parts with
  | [] => none
  | .scalar phase text :: below => scalarTurn byte phase text below
  | .str decoder text asKey :: below => strTurn byte decoder text asKey below
  | .array items :: below => arrayTurn byte items below
  | .object phase members :: below => objectTurn byte phase members below

def turns (byte : Byte) : Nat → Draft → Option Draft
  | 0, _ => none
  | n + 1, d => do
    let (used, d) ← turn byte d
    if used then some d else turns byte n d

def pushByte (d : Draft) (byte : Byte) : Option Draft :=
  if d.root.isSome then (if isWs byte then some d else none) else turns byte 3 d

def feed : List Byte → Draft → Option Draft
  | [], d => some d
  | b :: w, d => (pushByte d b).bind (feed w)

/-- The item, when its bytes end here. -/
def finish (d : Draft) : Option CanonicalValue :=
  match d.root, d.parts with
  | some v, _ => some v
  | none, [.scalar phase text] => scalarValue phase text
  | none, _ => none

/-- The same as `feed` where a frame for a value has just been opened, with some turns left for the first byte. -/
def begin (n : Nat) : List Byte → Draft → Option Draft
  | [], d => some d
  | b :: w, d => (turns b n d).bind (feed w)

theorem feed_append (u : List Byte) : ∀ (v : List Byte) (d : Draft), feed (u ++ v) d = (feed u d).bind (feed v) := by
  induction u with
  | nil => exact fun _ _ => rfl
  | cons b u ih =>
    intro v d
    rw [List.cons_append, feed, feed]
    cases pushByte d b with
    | none => rfl
    | some e => exact ih v e

theorem turns_used {byte : Byte} {d e : Draft} (h : turn byte d = some (true, e)) (n : Nat) :
    turns byte (n + 1) d = some e := by
  rw [turns, h]
  rfl

theorem turns_unused {byte : Byte} {d e : Draft} (h : turn byte d = some (false, e)) (n : Nat) :
    turns byte (n + 1) d = turns byte n e := by
  rw [turns, h]
  rfl

/-- A byte that is used up, or refused. -/
theorem turns_as_used {byte : Byte} {d : Draft} {o : Option Draft} (h : turn byte d = used o) (n : Nat) :
    turns byte (n + 1) d = o := by
  cases o with
  | none =>
    rw [turns, h]
    rfl
  | some e => exact turns_used h n

theorem pushByte_used {byte : Byte} {d : Draft} {o : Option Draft} (hroot : d.root = none) (h : turn byte d = used o) :
    pushByte d byte = o := by
  rw [pushByte, hroot]
  exact turns_as_used h 2

theorem pushByte_open {byte : Byte} {d e : Draft} (hroot : d.root = none) (h : turn byte d = some (true, e)) :
    pushByte d byte = some e :=
  pushByte_used hroot h

/-- What a value may be put into. -/
def Expecting : List Part → Prop
  | [] | .array _ :: _ | .object (.value _) _ :: _ => True
  | _ => False

theorem attach_some {below : List Part} (h : Expecting below) (v : CanonicalValue) : ∃ d, attach v below = some d := by
  cases below with
  | nil => exact ⟨_, rfl⟩
  | cons part below =>
    cases part with
    | array items => exact ⟨_, rfl⟩
    | object phase members =>
      cases phase with
      | value key => exact ⟨_, rfl⟩
      | keyOrClose | colon => exact h.elim
    | scalar | str => exact h.elim

/-- A value is complete, or a scalar that only its end is missing of. -/
def Settled (below : List Part) (v : CanonicalValue) (d : Draft) : Prop :=
  attach v below = some d ∨
    ∃ phase text, d = ⟨.scalar phase text :: below, none⟩ ∧ scalarIsComplete phase = true ∧
    scalarValue phase text = some v

end Draft
end MaskForge
