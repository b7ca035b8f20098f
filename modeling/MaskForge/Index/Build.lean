import MaskForge.Index.TrieSpells
/-!
# Build — the joint walk of trie and engine

One dead-pruned depth-first loop, `walkLiveSubtree`, serves every trie mode: the eager delta rows, the lazy mask and the
packed matrix differ only in what `emit` does with a token.  The loop prunes by the live classes of the current state
and memoises steps a node at a time; `walkLiveSubtree_ok` says that neither changes what is emitted: exactly the tokens
whose keys the engine survives, each with the state it lands in.
-/
namespace MaskForge

open Forest (Path Labelled)

/-- The generation and value tables, and the generation of the node being expanded (a `u32`). -/
structure StepMemo where
  generation : List Nat
  value : List Nat
  current : Nat

namespace StepMemo

def new : StepMemo := ⟨List.replicate 256 0, List.replicate 256 0, 0⟩

/-- Starts a fresh node; a wrapped counter resets the table. -/
def bump (m : StepMemo) : StepMemo :=
  if (m.current + 1) % u32Size = 0 then ⟨m.generation.map (fun _ => 0), m.value, 1⟩
  else { m with current := (m.current + 1) % u32Size }

def getOr (m : StepMemo) (c : Nat) (compute : Nat) : StepMemo × Nat :=
  if m.generation[c]? = some m.current then (m, m.value[c]?.getD 0)
  else (⟨m.generation.set c m.current, m.value.set c compute, m.current⟩, compute)

end StepMemo

def indexLimit (msg : String) : CompileError := ⟨.internalLimitExceeded, .l4Bind, msg⟩

section Walk

variable {σ : Type} (t : VocabTrie) (e : RefEngine) (stackFuel : Nat) (emit : σ → Nat → Nat → Except CompileError σ)

/-- Emits the tokens of one node. -/
def emitAll (q : Nat) : List Nat → σ → Except CompileError σ
  | [], acc => .ok acc
  | tok :: toks, acc => emit acc tok q >>= fun acc => emitAll q toks acc

/-- Pushes the live children of a node; the last one pushed is on top. -/
def pushLive (q : Nat) : List (Nat × Nat) → StepMemo → List (Nat × Nat) →
    Except CompileError (StepMemo × List (Nat × Nat))
  | [], memo, stack => .ok (memo, stack)
  | (key, child) :: rest, memo, stack =>
    let ci := t.classOfEdge key e
    if (e.liveClassesAt q).getLsbD ci then
      let mq := memo.getOr ci (e.step q ci)
      if mq.2 ≠ dead then
        if stackFuel ≤ stack.length then .error (indexLimit "joint-walk stack exceeds the build fuel")
        else pushLive q rest mq.1 ((child, mq.2) :: stack)
      else pushLive q rest mq.1 stack
    else pushLive q rest memo stack

/-- The stack loop.  Its first argument bounds the number of pops; `walkLiveSubtree` gives it the weight of the whole
trie, which no stack exceeds. -/
def walkLoop : Nat → StepMemo → List (Nat × Nat) → σ → Except CompileError (StepMemo × σ)
  | 0, memo, _, acc => .ok (memo, acc)
  | _ + 1, memo, [], acc => .ok (memo, acc)
  | f + 1, memo, (n, q) :: rest, acc =>
    if q = dead then walkLoop f memo rest acc
    else
      t.leafTokensOf n >>= fun toks => emitAll emit q toks acc >>= fun acc =>
        t.children n >>= fun kc => pushLive t e stackFuel q (kc.1.zip kc.2) memo.bump rest >>= fun ms =>
          walkLoop f ms.1 ms.2 acc

def walkLiveSubtree (memo : StepMemo) (s : Nat) (acc : σ) : Except CompileError (StepMemo × σ) :=
  walkLoop t e stackFuel emit (Worklist.fuel t.nodeCount t.edgeKey.length) memo [(0, s)] acc

end Walk

/-! ## The consumers -/

/-- `size_of::<(TrieNodeId, StateId)>()`. -/
def stackEntryBytes : Nat := 8

def stepMemoBytes : Nat := 256 * (4 + 4)

def scratchHeaderAllowance : Nat := 4096

def maxLazyTransientBytes : Nat := 2 ^ 26

def lazyWalkTransientBytes (maxDfsFrontier : Nat) : Nat :=
  maxDfsFrontier * stackEntryBytes + stepMemoBytes + scratchHeaderAllowance

/-- The serving gate's answer to one request for transient bytes. -/
abbrev Permit := Except CompileError Unit

/-- The lazy walk straight into a mask, admitted by the transient estimate and then by the serving gate. -/
def walkStateMaskInto (t : VocabTrie) (e : RefEngine) (permit : Permit) (s : Nat) (mask : Bitmask) :
    Except CompileError Bitmask :=
  if maxLazyTransientBytes < lazyWalkTransientBytes t.maxDfsFrontier then
    .error (indexLimit "lazy walk transient memory exceeds the budget")
  else permit >>= fun _ =>
    walkLiveSubtree t e t.maxDfsFrontier (fun (m : Bitmask) tok _ => m.set tok) StepMemo.new s mask >>= fun r => .ok r.2

structure IndexBuildLimits where
  maxStates : Nat := 2 ^ 22
  maxRowPairs : Nat := 2 ^ 21
  maxDeltaPairs : Nat := 2 ^ 26

/-- A row under construction and the pairs already charged, in this row and in all. -/
structure DeltaAcc where
  entries : List (Nat × Nat) := []
  rowUsed : Nat := 0
  totalUsed : Nat := 0

/-- Charges one pair before it is pushed. -/
def DeltaAcc.push (limits : IndexBuildLimits) (a : DeltaAcc) (tok q : Nat) : Except CompileError DeltaAcc :=
  if limits.maxRowPairs < a.rowUsed + 1 then .error (indexLimit "a state's row exceeds the index build row limit")
  else if limits.maxDeltaPairs < a.totalUsed + 1 then
    .error (indexLimit "delta pair count exceeds the index build limit")
  else .ok ⟨a.entries ++ [(tok, q)], a.rowUsed + 1, a.totalUsed + 1⟩

inductive BindMode where
  | naive
  | trieJointByte
  | trieJointByteLazy
  | trieJointBytePacked
  | trieJointClass
  deriving DecidableEq, Repr

structure CompiledIndex where
  delta : List (List (Nat × Nat))

def bindModeMismatch : CompileError :=
  ⟨.artifactOutOfBounds, .l4Bind, "bind mode does not match the trie alphabet"⟩

def partitionMismatch : CompileError :=
  ⟨.artifactMismatch, .l4Bind, "class-trie partition does not match the engine byte-class partition"⟩

/-- The rows of the states still to come, under one scratch and one budget. -/
def deltaRows (limits : IndexBuildLimits) (t : VocabTrie) (e : RefEngine) : List Nat → StepMemo → Nat →
    Except CompileError (List (List (Nat × Nat)))
  | [], _, _ => .ok []
  | s :: ss, memo, used =>
    walkLiveSubtree t e usizeMax (DeltaAcc.push limits) memo s { totalUsed := used } >>= fun r =>
      deltaRows limits t e ss r.1 r.2.totalUsed >>= fun rows => .ok (r.2.entries :: rows)

def buildDelta (d : Digests) (limits : IndexBuildLimits) (t : VocabTrie) (e : RefEngine) (mode : BindMode) :
    Except CompileError CompiledIndex :=
  if ¬ ((mode = .trieJointByte ∧ t.kind = .byte) ∨ (mode = .trieJointClass ∧ t.kind = .classes)) then
    .error bindModeMismatch
  else if t.kind = .classes ∧ t.partition ≠ some (d.partition e.classOfByte) then .error partitionMismatch
  else if limits.maxStates < e.stateCount then
    .error (indexLimit "reachable state count exceeds the index build limit")
  else deltaRows limits t e (List.range e.stateCount) StepMemo.new 0 >>= fun rows => .ok ⟨rows⟩

def packedIdOutOfRange : CompileError := ⟨.artifactOutOfBounds, .l4Bind, "a token id exceeds the mask vocab size"⟩

/-- Sets one token's bit in a row of the packed matrix. -/
def setPacked (vocabSize : Nat) (row : List Word) (tok : Nat) : Except CompileError (List Word) :=
  if vocabSize ≤ tok then .error packedIdOutOfRange else .ok (Bitmask.setBit row tok)

/-- The packed rows of the states still to come; the source writes each into its slice of one zeroed buffer. -/
def packedRows (t : VocabTrie) (e : RefEngine) (wpr vocabSize stackFuel : Nat) : List Nat → StepMemo →
    Except CompileError (List (List Word))
  | [], _ => .ok []
  | s :: ss, memo =>
    walkLiveSubtree t e stackFuel (fun row tok _ => setPacked vocabSize row tok) memo s (List.replicate wpr 0)
      >>= fun r => packedRows t e wpr vocabSize stackFuel ss r.1 >>= fun rows => .ok (r.2 :: rows)

def packedWidthMismatch : CompileError :=
  ⟨.artifactOutOfBounds, .l4Bind, "packed words_per_row does not match ceil(vocab_size / 32)"⟩

def fillPackedRows (t : VocabTrie) (e : RefEngine) (wpr vocabSize stackFuel : Nat) : Except CompileError (List Word) :=
  if wpr ≠ divCeil vocabSize wordBits then .error packedWidthMismatch
  else packedRows t e wpr vocabSize stackFuel (List.range e.stateCount) StepMemo.new >>= fun rows => .ok rows.flatten

end MaskForge
