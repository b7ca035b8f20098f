import MaskForge.Structured.Cursor
import MaskForge.Structured.JsonString
/-!
# StringEnumRoute — a string enum frame, byte by byte

The frame keeps the run of members that start with what was decoded.  A whole character narrows the run; inside a
character three probes ask whether some member of the run goes on with a character the bytes begun can still give.  As
an item of an array the frame also asks whether a member of the run is still admissible there: not among the items
already, and no match too many for `contains`.
-/
namespace MaskForge

/-- What a string enum frame reads of the array it is an item of; `seen` is `contains_string` of the canonical set. -/
structure ItemParent where
  seen : Option (List Byte → Bool)
  contains : Option ContainsPlan
  containsCount : Nat

def hexDigitOf (n : Nat) : Byte := UInt8.ofNat (if n < 10 then 0x30 + n else 0x57 + n)

/-- `encode_decoded_json_string`, a character at a time. -/
def encodeScalar (c : Char) : List Byte :=
  if c = '"' then [0x5c, 0x22]
  else if c = '\\' then [0x5c, 0x5c]
  else if c.toNat = 0x08 then [0x5c, 0x62]
  else if c.toNat = 0x0c then [0x5c, 0x66]
  else if c.toNat = 0x0a then [0x5c, 0x6e]
  else if c.toNat = 0x0d then [0x5c, 0x72]
  else if c.toNat = 0x09 then [0x5c, 0x74]
  else if c.toNat ≤ 0x1f then [0x5c, 0x75, 0x30, 0x30, hexDigitOf (c.toNat / 16), hexDigitOf (c.toNat % 16)]
  else String.utf8EncodeChar c

def encodeDecodedJsonString (candidate : List Byte) : Option (List Byte) :=
  (strFromUtf8 candidate).map (fun text => 0x22 :: (text.flatMap encodeScalar ++ [0x22]))

/-- The walk of `contains_schema_matches_decoded_string` through references. -/
def containsSchemaWalk (t : NodeTable) : Nat → Nat → List Byte → Option Bool
  | 0, _, _ => none
  | hops + 1, node, candidate => match t.node node with
    | .ref target => containsSchemaWalk t hops target candidate
    | .stringEnum members => some (members.members.any (· == candidate))
    | .regular engine => (encodeDecodedJsonString candidate).map engine.accepts
    | _ => none

def containsSchemaMatchesDecodedString (t : NodeTable) (node : Nat) (candidate : List Byte) : Option Bool :=
  containsSchemaWalk t (t.nodes.length + 1) node candidate

/-- `string_enum_member_respects_contains_cap`. -/
def ItemParent.respectsContainsCap (t : NodeTable) (array : ItemParent) (candidate : List Byte) : Bool :=
  match array.contains with
  | none => true
  | some contains =>
    if contains.max ≠ some array.containsCount then true
    else match contains.matchOn with
      | .never => true
      | .always => false
      | .schema node => containsSchemaMatchesDecodedString t node candidate != some true

/-- Not yet among the items. -/
def ItemParent.unseen (array : ItemParent) (candidate : List Byte) : Bool := !array.seen.any (· candidate)

/-- A member that may still be the item; outside an array any may. -/
def admissible (t : NodeTable) (parent : Option ItemParent) (candidate : List Byte) : Bool :=
  parent.all (fun array => array.unseen candidate && array.respectsContainsCap t candidate)

/-- The digits of an escape read so far, at least one, may still name the first half of a pair. -/
def JsonStringDecoder.mayNameSurrogate (d : JsonStringDecoder) : Bool :=
  match d.escape, d.pendingHighSurrogate with
  | .unicode digits value, none => decide (1 ≤ digits ∧ value * 16 ^ (4 - digits) ≤ 0xdbff ∧
      0xd800 ≤ value * 16 ^ (4 - digits) + 16 ^ (4 - digits) - 1)
  | _, _ => false

namespace StringEnumPlan

variable (t : NodeTable) (plan : StringEnumPlan) (parent : Option ItemParent)

/-- `(lo..hi).any` over the members. -/
def anyMember (lo hi : Nat) (p : List Byte → Bool) : Bool :=
  (List.range' lo (hi - lo)).any (fun index => plan.members[index]?.any p)

/-- `string_enum_has_unseen_candidate`. -/
def hasUnseenCandidate (lo hi : Nat) : Bool :=
  match parent with
  | none => true
  | some array => plan.anyMember lo hi (fun candidate => array.unseen candidate &&
      array.respectsContainsCap t candidate)

/-- `string_enum_scalar_has_unseen_candidate`. -/
def scalarHasUnseenCandidate (lo hi position : Nat) (scalar : Char) : Bool :=
  match Cursor.narrowAll plan (String.utf8EncodeChar scalar) (lo, hi, position) with
  | none => false
  | some (lo, hi, _) => plan.hasUnseenCandidate t parent lo hi

/-- `string_enum_any_scalar_has_unseen_candidate`. -/
def anyScalarHasUnseenCandidate (lo hi position : Nat) : Bool :=
  plan.anyMember lo hi (fun candidate => decide (position < candidate.length) && admissible t parent candidate)

/-- The first character of what is left of a member. -/
def nextScalar (position : Nat) (member : List Byte) : Option Char :=
  if position ≤ member.length then (strFromUtf8 (member.drop position)).bind List.head? else none

/-- The loop of `string_enum_supplementary_has_unseen_candidate`. -/
def supplementaryLoop (position first last : Nat) : List Nat → Option Bool
  | [] => some false
  | index :: rest => plan.members[index]?.bind (fun member => (nextScalar position member).bind (fun scalar =>
      if first ≤ scalar.toNat ∧ scalar.toNat ≤ last ∧ parent.all (·.unseen member) = true then some true
      else supplementaryLoop position first last rest))

/-- `string_enum_supplementary_has_unseen_candidate`. -/
def supplementaryHasUnseenCandidate (lo hi position first last : Nat) : Option Bool :=
  if hi ≤ lo ∨ plan.memberCount < hi then some false
  else plan.supplementaryLoop parent position first last (List.range' lo (hi - lo))

/-- The query of the character begun, for a decoder inside one. -/
def pendingCandidate (lo hi position : Nat) (decoder : JsonStringDecoder) : Option Bool :=
  decoder.anyPendingScalarSatisfies 4096 (plan.scalarHasUnseenCandidate t parent lo hi position)
    (some (plan.anyScalarHasUnseenCandidate t parent lo hi position))
    (plan.supplementaryHasUnseenCandidate parent lo hi position)

end StringEnumPlan

/-- `closed` hands the value over to `close_string_value`. -/
inductive EnumStep where
  | rejected
  | advanced (f : StringEnumFrame JsonStringDecoder)
  | closed
  deriving DecidableEq

/-- `route_string_enum_byte`. -/
def routeStringEnumByte (t : NodeTable) (plan : StringEnumPlan) (parent : Option ItemParent)
    (f : StringEnumFrame JsonStringDecoder) (b : Byte) : EnumStep :=
  if f.body = false then
    if isWs b then .advanced f
    else if b ≠ 0x22 ∨ plan.hasUnseenCandidate t parent f.lo f.hi = false then .rejected
    else .advanced { f with body := true }
  else if b = 0x22 ∧ f.decoder.atBoundary = true then
    if plan.containsExact f.lo f.hi f.decodedBytes = false then .rejected
    else if plan.hasUnseenCandidate t parent f.lo f.hi = false then .rejected
    else .closed
  else match f.decoder.push b with
    | (.invalid, _) => .rejected
    | (.cont, decoder) =>
      if plan.canContinue f.lo f.hi f.decodedBytes = false then .rejected
      else if plan.pendingCandidate t parent f.lo f.hi f.decodedBytes decoder = some false then .rejected
      else .advanced { f with decoder }
    | (.scalar c, decoder) => match Cursor.narrowAll plan (String.utf8EncodeChar c) (f.lo, f.hi, f.decodedBytes) with
      | none => .rejected
      | some (lo, hi, decodedBytes) =>
        if plan.hasUnseenCandidate t parent lo hi = false then .rejected
        else .advanced { f with decoder, lo, hi, decodedBytes }

/-- The frame of a plan before its value. -/
def StringEnumFrame.fresh (plan : StringEnumPlan) : StringEnumFrame JsonStringDecoder :=
  ⟨false, .new, 0, plan.memberCount, 0⟩

/-- The frame after a text none of whose bytes is refused or ends the value. -/
def readStringEnum (t : NodeTable) (plan : StringEnumPlan) (parent : Option ItemParent) :
    StringEnumFrame JsonStringDecoder → List Byte → Option (StringEnumFrame JsonStringDecoder)
  | f, [] => some f
  | f, b :: text => match routeStringEnumByte t plan parent f b with
    | .advanced f => readStringEnum t plan parent f text
    | .rejected | .closed => none

/-- `build_string_enum_plan`: the members as bytes. -/
def stringEnumPlan (values : List Text) : StringEnumPlan := ⟨values.map textBytes⟩

end MaskForge
