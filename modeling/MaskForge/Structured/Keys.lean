import MaskForge.Lib.CountingSort
import MaskForge.Primitives
/-!
# Keys — the key arena of a session, its undo log and its commit

Every open object of a `StructuredState` interns the keys its plan does not name into one arena, and keeps the ids by
hash.  A byte is undone by its log; a token that was taken commits, which drops the log and gives back the arena down to
the lowest mark of the objects the token closed.

The frames are kept by what they hold of keys: a schema object or an any-JSON object is an `ObjectKeys`, any other frame
holds none.  Which of these operations a byte performs is decided by the plan and the bytes; here a byte, and a token,
is any list of them, with the attempts it takes back.  A nested cursor is a state of its own, with its own arena.
-/
namespace MaskForge

/-- A decoded key, by its UTF-8 bytes. -/
abbrev Key := List Byte

inductive LimitKind where
  | sessionBytes
  | keyBytes
  | propertyCount
  deriving DecidableEq, Repr

structure StructuredRuntimeError where
  kind : LimitKind
  observed : Nat
  limit : Nat
  deriving DecidableEq, Repr

/-- The limits an intern is checked against. -/
structure KeyLimits where
  maxSessionBytes : Nat
  maxKeyBytes : Nat
  maxProperties : Nat

structure KeyArena where
  bytes : List Byte
  spans : List (Nat × Nat)
  deriving DecidableEq, Repr

namespace KeyArena

def get (a : KeyArena) (id : Nat) : Option Key :=
  a.spans[id]?.bind (fun span =>
    if span.1 + span.2 < u32Size ∧ span.1 + span.2 ≤ a.bytes.length then
      some (CountingSort.slice a.bytes span.1 (span.1 + span.2))
    else none)

/-- `mark`: both lengths, `as u32`. -/
def mark (a : KeyArena) : Nat × Nat := (a.bytes.length % u32Size, a.spans.length % u32Size)

def truncate (a : KeyArena) (m : Nat × Nat) : KeyArena := ⟨a.bytes.take m.1, a.spans.take m.2⟩

end KeyArena

/-- One hash bucket's ids. -/
inductive DynamicSlot where
  | one (id : Nat)
  | many (ids : List Nat)
  deriving DecidableEq, Repr

def DynamicSlot.ids : DynamicSlot → List Nat
  | one id => [id]
  | many ids => ids

inductive SlotTransition where
  | toOne
  | toMany2 (existing : Nat)
  | toManyPush (oldLen : Nat)

def classifySlotTransition : Option DynamicSlot → SlotTransition
  | none => .toOne
  | some (.one id) => .toMany2 id
  | some (.many ids) => .toManyPush ids.length

/-- `classify_key_intern`: `none` is a duplicate, else the id, the start and the length of the new span. -/
def classifyKeyIntern (limits : KeyLimits) (arena : KeyArena) (seen : Nat → Option DynamicSlot) (key : Key)
    (hash : Nat) :
    Except StructuredRuntimeError (Option (Nat × Nat × Nat × SlotTransition)) :=
  if (seen hash).any (fun slot => slot.ids.any (fun id => arena.get id == some key)) then .ok none
  else if u32Size ≤ arena.bytes.length then .error ⟨.sessionBytes, usizeMax, limits.maxSessionBytes⟩
  else if u32Size ≤ key.length then .error ⟨.keyBytes, usizeMax, limits.maxKeyBytes⟩
  else if u32Size ≤ arena.spans.length then .error ⟨.propertyCount, usizeMax, limits.maxProperties⟩
  else .ok (some (arena.spans.length, arena.bytes.length, key.length, classifySlotTransition (seen hash)))

/-- What an open object knows of its keys: its plan's names (none for any-JSON), which of them it has seen, the ids of
the others by hash, and the arena's fill level when it was opened. -/
structure ObjectKeys where
  knownByName : List (Key × Nat)
  seenKnown : Nat → Bool
  seenDynamic : Nat → Option DynamicSlot
  arenaStart : Nat × Nat

inductive KeyFrame where
  | object (keys : ObjectKeys)
  | other

/-- The log entries that touch keys; `pushFrame` undoes a pop and carries the frame that was popped. -/
inductive KeyUndo where
  | internKey (oldArenaLen oldSpanCount : Nat)
  | removeSeenDynamicBucket (depth hash : Nat)
  | restoreSeenDynamicOne (depth hash id : Nat)
  | truncateSeenDynamicMany (depth hash oldLen : Nat)
  | removeSeenKnown (depth id : Nat)
  | popFrame
  | pushFrame (frame : KeyFrame)

/-- The frames, innermost last, and the arena they share. -/
structure KeyCore where
  frames : List KeyFrame
  arena : KeyArena

structure KeyState where
  core : KeyCore
  undo : List KeyUndo

/-- The hasher and the limits of a session. -/
structure KeyEnv where
  hash : Key → Nat
  limits : KeyLimits

/-! ## Undoing -/

def KeyFrame.update (f : ObjectKeys → ObjectKeys) : KeyFrame → KeyFrame
  | object keys => object (f keys)
  | other => other

def ObjectKeys.setSlot (hash : Nat) (slot : Option DynamicSlot) (o : ObjectKeys) : ObjectKeys :=
  { o with seenDynamic := Function.update o.seenDynamic hash slot }

def ObjectKeys.setKnown (id : Nat) (seen : Bool) (o : ObjectKeys) : ObjectKeys :=
  { o with seenKnown := Function.update o.seenKnown id seen }

/-- `ids.truncate` of a bucket that holds many. -/
def DynamicSlot.truncate (len : Nat) : Option DynamicSlot → Option DynamicSlot
  | some (many ids) => some (many (ids.take len))
  | slot => slot

namespace KeyCore

def modifyAt (c : KeyCore) (depth : Nat) (f : ObjectKeys → ObjectKeys) : KeyCore :=
  { c with frames := c.frames.modify depth (KeyFrame.update f) }

/-- One entry of `rollback`. -/
def undoOne (c : KeyCore) : KeyUndo → KeyCore
  | .internKey oldArenaLen oldSpanCount => { c with arena := c.arena.truncate (oldArenaLen, oldSpanCount) }
  | .removeSeenDynamicBucket depth hash => c.modifyAt depth (ObjectKeys.setSlot hash none)
  | .restoreSeenDynamicOne depth hash id => c.modifyAt depth (ObjectKeys.setSlot hash (some (.one id)))
  | .truncateSeenDynamicMany depth hash oldLen =>
    c.modifyAt depth (fun o => o.setSlot hash (DynamicSlot.truncate oldLen (o.seenDynamic hash)))
  | .removeSeenKnown depth id => c.modifyAt depth (ObjectKeys.setKnown id false)
  | .popFrame => { c with frames := c.frames.dropLast }
  | .pushFrame frame => { c with frames := c.frames ++ [frame] }

end KeyCore

namespace KeyState

/-- `rollback`: entries are undone, newest first, until the log is as short as the mark. -/
def rollbackFrom (mark : Nat) : List KeyUndo → KeyCore → KeyState
  | [], c => ⟨c, []⟩
  | e :: rest, c => if mark < rest.length + 1 then rollbackFrom mark rest (c.undoOne e) else ⟨c, e :: rest⟩

def rollback (s : KeyState) (mark : Nat) : KeyState := rollbackFrom mark s.undo s.core

/-! ## Opening, closing and keys -/

def pushFrame (s : KeyState) (frame : KeyFrame) : KeyState :=
  ⟨{ s.core with frames := s.core.frames ++ [frame] }, .popFrame :: s.undo⟩

def openObject (s : KeyState) (knownByName : List (Key × Nat)) : KeyState :=
  s.pushFrame (.object ⟨knownByName, fun _ => false, fun _ => none, s.core.arena.mark⟩)

def popFrame (s : KeyState) : KeyState :=
  match s.core.frames.getLast? with
  | none => s
  | some frame => ⟨{ s.core with frames := s.core.frames.dropLast }, .pushFrame frame :: s.undo⟩

/-- The span is appended, and its id goes to the bucket of its hash. -/
def insertKey (s : KeyState) (depth hash : Nat) (key : Key) (id start len : Nat) (transition : SlotTransition) :
    KeyState :=
  let old := s.core.arena.mark
  let c : KeyCore := { s.core with arena := ⟨s.core.arena.bytes ++ key, s.core.arena.spans ++ [(start, len)]⟩ }
  match transition with
  | .toOne => ⟨c.modifyAt depth (ObjectKeys.setSlot hash (some (.one id))),
      .removeSeenDynamicBucket depth hash :: .internKey old.1 old.2 :: s.undo⟩
  | .toMany2 existing => ⟨c.modifyAt depth (ObjectKeys.setSlot hash (some (.many [existing, id]))),
      .restoreSeenDynamicOne depth hash existing :: .internKey old.1 old.2 :: s.undo⟩
  | .toManyPush oldLen =>
    ⟨c.modifyAt depth (fun o => o.setSlot hash
      (some (.many (((o.seenDynamic hash).map DynamicSlot.ids).getD [] ++ [id])))),
      .truncateSeenDynamicMany depth hash oldLen :: .internKey old.1 old.2 :: s.undo⟩

/-- `size_of::<(u32, u32)>()`. -/
def spanBytes : Nat := 8

/-- `intern_dynamic_key` and `intern_any_dynamic_key`: `none` refuses a duplicate, else the new state and the key's id.
The arena grows only within the session's bytes, and only if the session's memory grants it. -/
def internDynamicKey (env : KeyEnv) (s : KeyState) (depth : Nat) (o : ObjectKeys) (key : Key) (granted : Bool) :
    Except StructuredRuntimeError (Option (KeyState × Nat)) := do
  match ← classifyKeyIntern env.limits s.core.arena o.seenDynamic key (env.hash key) with
  | none => .ok none
  | some (id, start, len, transition) =>
    if granted = false ∨ env.limits.maxSessionBytes < s.core.arena.bytes.length + key.length ∨
        env.limits.maxSessionBytes < (s.core.arena.spans.length + 1) * spanBytes then
      .error ⟨.sessionBytes, s.core.arena.bytes.length + key.length, env.limits.maxSessionBytes⟩
    else .ok (some (s.insertKey depth (env.hash key) key id start len transition, id))

/-- What `resolve_at_colon` and `resolve_any_colon` do with the key of the innermost object: `none` refuses it, else the
new state and the key's id if it was interned. -/
def resolveKey (env : KeyEnv) (s : KeyState) (key : Key) (granted : Bool) :
    Except StructuredRuntimeError (Option (KeyState × Option Nat)) :=
  match s.core.frames.getLast? with
  | some (.object o) => match o.knownByName.lookup key with
    | some id =>
      if o.seenKnown id then .ok none
      else .ok (some (⟨s.core.modifyAt (s.core.frames.length - 1) (ObjectKeys.setKnown id true),
        .removeSeenKnown (s.core.frames.length - 1) id :: s.undo⟩, none))
    | none => (s.internDynamicKey env (s.core.frames.length - 1) o key granted).map
        (Option.map (fun r => (r.1, some r.2)))
  | _ => .ok none

/-! ## Commit -/

def minMark (m : Nat × Nat) : Option (Nat × Nat) → Nat × Nat
  | none => m
  | some r => (min r.1 m.1, min r.2 m.2)

/-- The loop of `apply_commit` over the log: the lowest mark of the objects popped since the last commit. -/
def reclaimTo : List KeyUndo → Option (Nat × Nat) → Option (Nat × Nat)
  | [], r => r
  | .pushFrame (.object o) :: rest, r => reclaimTo rest (some (minMark o.arenaStart r))
  | _ :: rest, r => reclaimTo rest r

/-- `apply_commit`. -/
def commit (s : KeyState) : KeyState :=
  match reclaimTo s.undo none with
  | none => ⟨s.core, []⟩
  | some m => ⟨{ s.core with arena := s.core.arena.truncate m }, []⟩

end KeyState

/-! ## Runs -/

/-- A key a token fed to an object: its id if it was interned, and whether the token had closed an object before. -/
structure Member where
  key : Key
  id : Option Nat
  late : Bool
  deriving DecidableEq, Repr

/-- What a token does to keys; `attempt` is what is taken back again. -/
inductive KeyAct where
  | openObject (knownByName : List (Key × Nat))
  | pushFrame
  | popFrame
  | resolveKey (key : Key) (granted : Bool)
  | attempt (acts : List KeyAct)

/-- A state with its history: the keys fed to each open object (`none` for other frames), and whether an object was
closed since the last commit. -/
structure KeyTrace where
  state : KeyState
  fed : List (Option (List Member))
  closed : Bool

namespace KeyTrace

def initial : KeyTrace := ⟨⟨⟨[], ⟨[], []⟩⟩, []⟩, [], false⟩

def feed (t : KeyTrace) (state : KeyState) (key : Key) (id : Option Nat) : KeyTrace :=
  { t with state, fed := t.fed.modify (t.fed.length - 1) (Option.map (· ++ [⟨key, id, t.closed⟩])) }

mutual

/-- A key that is refused, or that fails, changes nothing. -/
def act (env : KeyEnv) (t : KeyTrace) : KeyAct → KeyTrace
  | .openObject knownByName => { t with state := t.state.openObject knownByName, fed := t.fed ++ [some []] }
  | .pushFrame => { t with state := t.state.pushFrame .other, fed := t.fed ++ [none] }
  | .popFrame =>
    { state := t.state.popFrame, fed := t.fed.dropLast, closed := t.closed || t.fed.getLast?.any Option.isSome }
  | .resolveKey key granted => match t.state.resolveKey env key granted with
    | .ok (some (state, id)) => t.feed state key id
    | _ => t
  | .attempt acts => { t with state := (acts' env t acts).state.rollback t.state.undo.length }

def acts' (env : KeyEnv) (t : KeyTrace) : List KeyAct → KeyTrace
  | [] => t
  | a :: rest => acts' env (act env t a) rest

end

/-- `StructuredMatcher::advance`: a token that is taken is committed, one that is refused is rolled back. -/
def advance (env : KeyEnv) (t : KeyTrace) (acts : List KeyAct) (taken : Bool) : KeyTrace :=
  if taken then { acts' env t acts with state := (acts' env t acts).state.commit, closed := false }
  else act env t (.attempt acts)

def run (env : KeyEnv) : KeyTrace → List (List KeyAct × Bool) → KeyTrace
  | t, [] => t
  | t, (acts, taken) :: rest => run env (advance env t acts taken) rest

end KeyTrace
end MaskForge
