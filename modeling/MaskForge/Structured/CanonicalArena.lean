import MaskForge.Lib.Attempt
import MaskForge.Structured.NumberForm
import MaskForge.Structured.Scalar
import MaskForge.Structured.StringDecoder
/-!
# CanonicalArena — the values of an array of distinct items

The items of an array share one arena: every value is a node, the children of a closed array and the members of a
closed object are contiguous, and texts are spans of one list of bytes.  A builder turns the bytes of an item into
nodes, and a set keeps the items under the hash of what they hold.  The byte ledgers of both and the allocator behind
them are a parameter (`Room`): they answer each request for room in any way whatever.
-/
namespace MaskForge

inductive CanonicalLimit where
  | canonicalBytes
  | allocationBytes
  deriving DecidableEq, Repr

/-- A limit that is hit, or `stuck`, where the code would panic or not end. -/
inductive CanonicalError where
  | limit (kind : CanonicalLimit) (observed limit : Nat)
  | stuck
  deriving DecidableEq, Repr

abbrev CanonicalId := Nat

structure ByteSpan where
  start : Nat
  len : Nat
  deriving DecidableEq, Repr

structure ChildRange where
  start : Nat
  len : Nat
  deriving DecidableEq, Repr

structure EntryRange where
  start : Nat
  len : Nat
  deriving DecidableEq, Repr

structure NumberRecord where
  negative : Bool
  digits : ByteSpan
  expNegative : Bool
  expDigits : ByteSpan
  deriving DecidableEq, Repr

inductive CanonicalNode where
  | null
  | bool (b : Bool)
  | number (n : NumberRecord)
  | string (s : ByteSpan)
  | array (r : ChildRange)
  | object (r : EntryRange)
  deriving DecidableEq, Repr

/-- A member of an object: the bytes of its decoded key, and its value. -/
structure ObjectEntry where
  key : ByteSpan
  value : CanonicalId
  deriving DecidableEq, Repr

structure CanonicalArena where
  nodes : List CanonicalNode
  bytes : List Byte
  children : List CanonicalId
  entries : List ObjectEntry
  deriving DecidableEq, Repr

/-- The lengths of an arena. -/
structure CanonicalMark where
  nodesLen : Nat
  bytesLen : Nat
  childrenLen : Nat
  entriesLen : Nat
  deriving DecidableEq, Repr

namespace CanonicalArena

def empty : CanonicalArena := ⟨[], [], [], []⟩

def spanBytes (a : CanonicalArena) (span : ByteSpan) : List Byte := (a.bytes.drop span.start).take span.len

def mark (a : CanonicalArena) : CanonicalMark := ⟨a.nodes.length, a.bytes.length, a.children.length, a.entries.length⟩

/-- Every list is cut to its length in the mark. -/
def restore (a : CanonicalArena) (m : CanonicalMark) : CanonicalArena :=
  ⟨a.nodes.take m.nodesLen, a.bytes.take m.bytesLen, a.children.take m.childrenLen, a.entries.take m.entriesLen⟩

/-- The entries from a place on, sorted by the bytes of their keys; ties keep their order. -/
def sortEntriesFrom (a : CanonicalArena) (start : Nat) : CanonicalArena :=
  { a with entries := a.entries.take start ++
      (a.entries.drop start).mergeSort fun x y => decide (a.spanBytes x.key ≤ a.spanBytes y.key) }

/-- The children of an array. -/
def childrenOf (a : CanonicalArena) (r : ChildRange) : List CanonicalId := (a.children.drop r.start).take r.len

/-- The members of an object. -/
def entriesOf (a : CanonicalArena) (r : EntryRange) : List ObjectEntry := (a.entries.drop r.start).take r.len

end CanonicalArena

/-! ### The builder and the set -/

inductive ObjectBuildPhase where
  | keyOrClose
  | colon (key : ByteSpan)
  | value (key : ByteSpan)
  deriving DecidableEq, Repr

/-- What is open: a scalar (of a number, where its text starts; of a literal, which one it was), a string, an array
with its items so far, an object with its members so far. -/
inductive BuildFrame where
  | scalar (phase : ScalarPhase) (numberStart : Nat)
  | str (decoder : JsonStringDecoder) (textStart : Nat) (asKey : Bool)
  | array (children : List CanonicalId)
  | object (phase : ObjectBuildPhase) (entries : List ObjectEntry)

def BuildFrame.valueStart : BuildFrame := .scalar .beforeValue 0

/-- How one change is taken back. -/
inductive BuilderUndo where
  | restoreScalar (depth : Nat) (phase : ScalarPhase) (numberStart : Nat)
  | restoreString (depth : Nat) (decoder : JsonStringDecoder)
  | restoreObjectPhase (depth : Nat) (phase : ObjectBuildPhase)
  | truncateChildren (depth oldLen : Nat)
  | truncateEntries (depth oldLen : Nat)
  | restoreRoot
  | popFrame
  | pushFrame (frame : BuildFrame)

/-- The open frames, the innermost last, the value that is complete, and the journal. -/
structure CanonicalBuilder where
  stack : List BuildFrame
  root : Option CanonicalId
  undo : List BuilderUndo

structure BuilderMark where
  arena : CanonicalMark
  undoLen : Nat
  root : Option CanonicalId

/-- A set of items and the builder of the next one, with the memory both are charged to. -/
structure CanonicalSet (μ : Type) where
  mem : μ
  arena : CanonicalArena
  buckets : Finmap fun _ : UInt64 => List CanonicalId
  builder : CanonicalBuilder

/-- What room is asked for. -/
inductive Store where
  | nodes
  | bytes
  | children
  | entries
  | numberScratch
  | stack
  | undo
  /-- The items of the array, or the members of the object, at some depth. -/
  | frame (depth : Nat)
  | hashStack
  | eqStack
  | buckets
  deriving DecidableEq, Repr

structure RoomError where
  kind : CanonicalLimit
  observed : Nat
  limit : Nat

/-- The byte ledgers of a set and its builder, and the allocator behind them. -/
structure Room (μ : Type) where
  /-- `set_budget`: what the builder leaves of the budget to the set. -/
  setBudget (budget : Nat) : Attempt μ RoomError Nat
  /-- Room for so many more behind those there are. -/
  grow (store : Store) (budget len additional : Nat) : Attempt μ RoomError Unit
  /-- A new builder with its first frame. -/
  start (budget : Nat) : Attempt μ RoomError Unit
  /-- Frames that go give back what they hold. -/
  release : List BuildFrame → μ → μ
  releaseBucket : UInt64 → μ → μ

/-- What happens to a set and its builder; it may fail part of the way. -/
abbrev Building (μ α : Type) := Attempt (CanonicalSet μ) CanonicalError α

namespace Building

section
variable {μ : Type} (room : Room μ) (budget : Nat)

/-- The error of an item that is no value, and of a count that is too large. -/
def broken {α : Type} : Building μ α := .lift (.error (.limit .canonicalBytes usizeMax budget))

def stuck {α : Type} : Building μ α := .lift (.error .stuck)

def need {α : Type} (o : Option α) : Building μ α := o.elim (broken budget) pure

def checkedU32 (n : Nat) : Building μ Nat := if n < u32Size then pure n else broken budget

/-- A request to the memory. -/
def ask {α : Type} (x : Attempt μ RoomError α) : Building μ α := fun s =>
  (match (x s.mem).1 with
    | .ok a => .ok a
    | .error e => .error (.limit e.kind e.observed e.limit), { s with mem := (x s.mem).2 })

def modifyArena (f : CanonicalArena → CanonicalArena) : Building μ Unit :=
  .modify fun s => { s with arena := f s.arena }

def modifyBuilder (f : CanonicalBuilder → CanonicalBuilder) : Building μ Unit :=
  .modify fun s => { s with builder := f s.builder }

/-! ### What is added to the arena -/

def pushBytes (extra : List Byte) : Building μ Unit :=
  if extra.isEmpty then pure ()
  else do
    let s ← .get
    ask (room.grow .bytes budget s.arena.bytes.length extra.length)
    modifyArena fun a => { a with bytes := a.bytes ++ extra }

def pushNode (node : CanonicalNode) : Building μ CanonicalId := do
  let s ← .get
  ask (room.grow .nodes budget s.arena.nodes.length 1)
  let id ← checkedU32 budget s.arena.nodes.length
  modifyArena fun a => { a with nodes := a.nodes ++ [node] }
  return id

def pushChildrenBatch (items : List CanonicalId) : Building μ Unit := do
  let s ← .get
  ask (room.grow .children budget s.arena.children.length items.length)
  modifyArena fun a => { a with children := a.children ++ items }

def pushEntriesBatch (items : List ObjectEntry) : Building μ Unit := do
  let s ← .get
  ask (room.grow .entries budget s.arena.entries.length items.length)
  modifyArena fun a => { a with entries := a.entries ++ items }

/-- Some bytes and where they stand; their place is taken before they are written. -/
def pushSpan (bytes : List Byte) : Building μ ByteSpan := do
  let s ← .get
  let start ← checkedU32 budget s.arena.bytes.length
  pushBytes room budget bytes
  let len ← checkedU32 budget bytes.length
  return ⟨start, len⟩

/-- The number whose text is the end of the bytes; its canonical form is written behind the text. -/
def finishNumber (textStart : Nat) : Building μ CanonicalNode := do
  let s ← .get
  if s.arena.bytes.length < textStart then broken budget
  else
    let scratchLen := (s.arena.bytes.length - textStart) * 3 + 42
    if usizeMax < scratchLen then broken budget
    else do
      ask (room.grow .numberScratch budget 0 scratchLen)
      let form ← need budget (NumberForm.finishNumber (s.arena.bytes.drop textStart)).toOption
      let digits ← pushSpan room budget form.digits
      let expDigits ← pushSpan room budget form.expDigits
      return .number ⟨form.negative, digits, form.expNegative, expDigits⟩

end

end Building
end MaskForge
