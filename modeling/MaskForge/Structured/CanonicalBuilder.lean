import MaskForge.Structured.CanonicalArena
/-!
# CanonicalBuilder — an item, byte by byte

The builder gets bytes the JSON engine has taken, and turns them into nodes without recursion.  Each change to
its frames is written down, so that a byte can be taken back.  What a mark keeps is the lengths of the arena and
of the journal.
-/
namespace MaskForge
namespace Building

section
variable {μ : Type} (room : Room μ) (budget : Nat)

/-! ### Frames -/

def setFrame (depth : Nat) (frame : BuildFrame) : Building μ Unit :=
  modifyBuilder fun b => { b with stack := b.stack.set depth frame }

def pushFrame (frame : BuildFrame) : Building μ Unit := modifyBuilder fun b => { b with stack := b.stack ++ [frame] }

def popFrame : Building μ Unit := modifyBuilder fun b => { b with stack := b.stack.dropLast }

def setRoot (id : CanonicalId) : Building μ Unit := modifyBuilder fun b => { b with root := some id }

def reserveRecord : Building μ Unit := do
  let s ← .get
  ask (room.grow .undo budget s.builder.undo.length 1)

def note (entry : BuilderUndo) : Building μ Unit := modifyBuilder fun b => { b with undo := b.undo ++ [entry] }

def record (entry : BuilderUndo) : Building μ Unit := do
  reserveRecord room budget
  note entry

def reserveStack : Building μ Unit := do
  let s ← .get
  ask (room.grow .stack budget s.builder.stack.length 1)

/-- The innermost frame and its depth. -/
def top : Building μ (Nat × Option BuildFrame) := do
  let s ← .get
  return (s.builder.stack.length - 1, s.builder.stack.getLast?)

/-- A key that is complete, on the object that is innermost now. -/
def attachKey (key : ByteSpan) : Building μ Unit := do
  match ← top with
  | (depth, some (.object phase entries)) => do
    record room budget (.restoreObjectPhase depth phase)
    setFrame depth (.object (.colon key) entries)
  | _ => broken budget

/-- A value that is complete: the item itself, or a part of what is innermost now. -/
def completeValue (id : CanonicalId) : Building μ Unit := do
  match ← top with
  | (_, none) => do
    record room budget .restoreRoot
    setRoot id
  | (depth, some (.array children)) => do
    ask (room.grow (.frame depth) budget children.length 1)
    record room budget (.truncateChildren depth children.length)
    setFrame depth (.array (children ++ [id]))
  | (depth, some (.object (.value key) entries)) => do
    ask (room.grow (.frame depth) budget entries.length 1)
    record room budget (.truncateEntries depth entries.length)
    record room budget (.restoreObjectPhase depth (.value key))
    setFrame depth (.object .keyOrClose (entries ++ [⟨key, id⟩]))
  | _ => broken budget

/-! ### Scalars -/

/-- Which literal it was, when only its end is left to see. -/
def literalTag : ScalarPhase → Option Nat
  | .trueAt _ => some 1
  | .falseAt _ => some 2
  | .nullAt _ => some 3
  | _ => none

def literalFromTag : Nat → Option CanonicalNode
  | 1 => some (.bool true)
  | 2 => some (.bool false)
  | 3 => some .null
  | _ => none

/-- The node of a scalar that is complete. -/
def finishScalar (phase : ScalarPhase) (numberStart : Nat) : Building μ CanonicalNode := do
  let setBudget ← ask (room.setBudget budget)
  match phase with
  | .number _ => finishNumber room setBudget numberStart
  | .literalDone => need budget (literalFromTag numberStart)
  | _ => broken budget

def pushItemBytes (bytes : List Byte) : Building μ Unit := do
  let setBudget ← ask (room.setBudget budget)
  pushBytes room setBudget bytes

def pushItemNode (node : CanonicalNode) : Building μ CanonicalId := do
  let setBudget ← ask (room.setBudget budget)
  pushNode room setBudget node

def textStart : Building μ Nat := do
  let s ← .get
  checkedU32 budget s.arena.bytes.length

/-- The byte of a scalar that goes on, written down if it is of a number; what the frame keeps beside the new phase. -/
def scalarStart (byte : Byte) (phase next : ScalarPhase) (numberStart : Nat) : Building μ Nat :=
  match next, phase with
  | .number _, .number _ => do
    pushItemBytes room budget [byte]
    return numberStart
  | .number _, _ => do
    let start ← textStart budget
    pushItemBytes room budget [byte]
    return start
  | .literalDone, _ => need budget (literalTag phase)
  | _, _ => pure numberStart

/-- The frame of a scalar becomes another one. -/
def replaceScalar (depth : Nat) (phase : ScalarPhase) (numberStart : Nat) (frame : BuildFrame) : Building μ Bool := do
  record room budget (.restoreScalar depth phase numberStart)
  setFrame depth frame
  return true

/-- A byte for a scalar frame; whether the byte is used up. -/
def scalarTurn (byte : Byte) (depth : Nat) (phase : ScalarPhase) (numberStart : Nat) : Building μ Bool :=
  match stepScalar phase byte with
  | .cont next => do
    let start ← scalarStart room budget byte phase next numberStart
    replaceScalar room budget depth phase numberStart (.scalar next start)
  | .startString => do
    let start ← textStart budget
    replaceScalar room budget depth phase numberStart (.str .new start false)
  | .startArray => replaceScalar room budget depth phase numberStart (.array [])
  | .startObject => replaceScalar room budget depth phase numberStart (.object .keyOrClose [])
  | .done => do
    let node ← finishScalar room budget phase numberStart
    let id ← pushItemNode room budget node
    record room budget (.pushFrame (.scalar phase numberStart))
    popFrame
    completeValue room budget id
    -- the byte is not of the scalar: what is innermost now has still to see it
    let s ← .get
    return s.builder.root.isSome
  | .invalid => broken budget

/-! ### Strings -/

def closeStr (span : ByteSpan) (asKey : Bool) : Building μ Unit :=
  if asKey then attachKey room budget span
  else do
    let id ← pushItemNode room budget (.string span)
    completeValue room budget id

def takeDecoded : DecodeStep → Building μ Unit
  | .cont => pure ()
  | .scalar c => pushItemBytes room budget (String.utf8EncodeChar c)
  | .invalid => broken budget

/-- A byte for a string frame.  The decoder moves before anything is asked for or written down. -/
def strTurn (byte : Byte) (depth : Nat) (decoder : JsonStringDecoder) (start : Nat) (asKey : Bool) : Building μ Bool :=
  if byte = 0x22 ∧ decoder.atBoundary = true then do
    let stop ← textStart budget
    record room budget (.pushFrame (.str decoder start asKey))
    popFrame
    closeStr room budget ⟨start, stop - start⟩ asKey
    return true
  else do
    setFrame depth (.str (decoder.push byte).2 start asKey)
    takeDecoded room budget (decoder.push byte).1
    record room budget (.restoreString depth decoder)
    return true

/-! ### Containers -/

/-- A new value inside of what is innermost now. -/
def openFrame (frame : BuildFrame) : Building μ Unit := do
  reserveStack room budget
  record room budget .popFrame
  pushFrame frame

/-- The frame of a container that is closed makes way for its node. -/
def closeFrame (frame : BuildFrame) (id : CanonicalId) : Building μ Bool := do
  popFrame
  note (.pushFrame frame)
  completeValue room budget id
  return true

def closeArray (children : List CanonicalId) : Building μ Bool := do
  reserveRecord room budget
  let s ← .get
  let start ← checkedU32 budget s.arena.children.length
  let setBudget ← ask (room.setBudget budget)
  pushChildrenBatch room setBudget children
  let len ← checkedU32 budget children.length
  let id ← pushItemNode room budget (.array ⟨start, len⟩)
  closeFrame room budget (.array children) id

def arrayTurn (byte : Byte) (children : List CanonicalId) : Building μ Bool :=
  if isWs byte ∨ byte = 0x2c then pure true
  else if byte = 0x5d then closeArray room budget children
  else do
    openFrame room budget .valueStart
    return false

def closeObject (entries : List ObjectEntry) : Building μ Bool := do
  reserveRecord room budget
  let s ← .get
  let start ← checkedU32 budget s.arena.entries.length
  let setBudget ← ask (room.setBudget budget)
  pushEntriesBatch room setBudget entries
  let len ← checkedU32 budget entries.length
  let id ← pushItemNode room budget (.object ⟨start, len⟩)
  modifyArena fun a => a.sortEntriesFrom start
  closeFrame room budget (.object .keyOrClose entries) id

def openKey : Building μ Bool := do
  let start ← textStart budget
  openFrame room budget (.str .new start true)
  return true

def objectTurn (byte : Byte) (depth : Nat) (phase : ObjectBuildPhase) (entries : List ObjectEntry) : Building μ Bool :=
  match phase with
  | .keyOrClose =>
    if isWs byte ∨ byte = 0x2c then pure true
    else if byte = 0x22 then openKey room budget
    else if byte = 0x7d then closeObject room budget entries
    else broken budget
  | .colon key =>
    if isWs byte then pure true
    else if byte ≠ 0x3a then broken budget
    else do
      record room budget (.restoreObjectPhase depth (.colon key))
      setFrame depth (.object (.value key) entries)
      return true
  | .value _ =>
    if isWs byte then pure true
    else do
      openFrame room budget .valueStart
      return false

/-! ### Bytes -/

/-- One turn of the loop of `push_byte`. -/
def turn (byte : Byte) : Building μ Bool := do
  match ← top with
  | (_, none) => broken budget
  | (depth, some (.scalar phase numberStart)) => scalarTurn room budget byte depth phase numberStart
  | (depth, some (.str decoder start asKey)) => strTurn room budget byte depth decoder start asKey
  | (_, some (.array children)) => arrayTurn room budget byte children
  | (depth, some (.object phase entries)) => objectTurn room budget byte depth phase entries

/-- The loop of `push_byte`. -/
def turns (byte : Byte) : Nat → Building μ Unit
  | 0 => stuck
  | fuel + 1 => do
    let used ← turn room budget byte
    if used then pure () else turns byte fuel

/-- A byte ends a scalar, opens a frame for a value and begins the value at most: three turns are enough. -/
def pushByte (byte : Byte) : Building μ Unit := do
  let s ← .get
  if s.builder.root.isSome then
    if isWs byte then pure () else broken budget
  else turns room budget byte 3

/-- A scalar that is still open is closed; the item is what the builder has then. -/
def closeRoot (phase : ScalarPhase) (numberStart : Nat) : Building μ CanonicalId := do
  let node ← finishScalar room budget phase numberStart
  let id ← pushItemNode room budget node
  record room budget (.pushFrame (.scalar phase numberStart))
  record room budget .restoreRoot
  popFrame
  setRoot id
  return id

/-- `CanonicalBuilder::finish`. -/
def finish : Building μ CanonicalId := do
  let s ← .get
  match s.builder.root, s.builder.stack with
  | some id, _ => return id
  | none, [.scalar phase numberStart] => closeRoot room budget phase numberStart
  | none, _ => broken budget

end

/-! ### Taking back -/

/-- What one entry of the journal does to the frames and the root. -/
def undoEntry (entry : BuilderUndo) (c : List BuildFrame × Option CanonicalId) : List BuildFrame × Option CanonicalId :=
  match entry with
  | .restoreScalar depth phase numberStart => (c.1.set depth (.scalar phase numberStart), c.2)
  | .restoreString depth decoder => (c.1.modify depth fun frame => match frame with
      | .str _ start asKey => .str decoder start asKey
      | frame => frame, c.2)
  | .restoreObjectPhase depth phase => (c.1.modify depth fun frame => match frame with
      | .object _ entries => .object phase entries
      | frame => frame, c.2)
  | .truncateChildren depth oldLen => (c.1.modify depth fun frame => match frame with
      | .array children => .array (children.take oldLen)
      | frame => frame, c.2)
  | .truncateEntries depth oldLen => (c.1.modify depth fun frame => match frame with
      | .object phase entries => .object phase (entries.take oldLen)
      | frame => frame, c.2)
  | .restoreRoot => (c.1, none)
  | .popFrame => (c.1.dropLast, c.2)
  | .pushFrame frame => (c.1 ++ [frame], c.2)

/-- The frame an entry replaces, which gives back what it holds. -/
def released (entry : BuilderUndo) (stack : List BuildFrame) : List BuildFrame :=
  match entry with
  | .restoreScalar depth _ _ => stack[depth]?.toList
  | _ => []

section
variable {μ : Type} (room : Room μ)

def builderMark (s : CanonicalSet μ) : BuilderMark := ⟨s.arena.mark, s.builder.undo.length, s.builder.root⟩

/-- The loop of `restore`, over the journal from its newest entry, down to its length in the mark. -/
def unwind (undoLen : Nat) : List BuilderUndo → CanonicalSet μ → CanonicalSet μ
  | [], s => s
  | entry :: older, s =>
    if older.length < undoLen then s
    else
      let c := undoEntry entry (s.builder.stack, s.builder.root)
      unwind undoLen older { s with
        mem := room.release (released entry s.builder.stack) s.mem
        builder := ⟨c.1, c.2, older.reverse⟩ }

/-- `CanonicalBuilder::restore`. -/
def restore (mark : BuilderMark) (s : CanonicalSet μ) : CanonicalSet μ :=
  let s := unwind room mark.undoLen s.builder.undo.reverse { s with arena := s.arena.restore mark.arena }
  { s with builder := { s.builder with root := mark.root } }

end

end Building
end MaskForge
