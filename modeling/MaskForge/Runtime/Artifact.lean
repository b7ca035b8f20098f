import MaskForge.Index.BuildWalk
/-!
# Artifact — engines bound to vocabularies, their mask queries and the matcher

`CompiledArtifact` is what a bind leaves: engine, vocabulary, bind mode and the one structure that mode reads.  Only the
per-state mask cache changes afterwards, so it is a state of its own, threaded through `cachedMask` and `allowedIds`.
What the process around an artifact decides (the memory gates' answers, whether its provenance record validates) comes
in as an argument.
-/
namespace MaskForge

open CountingSort (slice)

def maxMaskCacheBytes : Nat := 2 ^ 26

def maskCacheEntryOverhead : Nat := 64

def maxPackedMaskBytes : Nat := 2 ^ 28

def packedHeaderAllowance : Nat := 2 ^ 16

def maxLazyRowsBytes : Nat := 2 ^ 28

/-- `size_of::<MaskSlot>()`. -/
def maskSlotBytes : Nat := 24

structure PackedMaskTable where
  wordsPerRow : Nat
  rows : List Word

/-- The packed words of `s`, `None` for a forged state. -/
def PackedMaskTable.row (p : PackedMaskTable) (s : Nat) : Option (List Word) :=
  if s * p.wordsPerRow + p.wordsPerRow ≤ p.rows.length then
    some (slice p.rows (s * p.wordsPerRow) (s * p.wordsPerRow + p.wordsPerRow))
  else none

inductive SlotValue where
  | cached (result : Except CompileError Bitmask)
  | uncached

structure LazyRows where
  rows : List (Option SlotValue)
  retainedBytes : Nat
  budgetBytes : Nat

namespace LazyRows

def slotArrayTooLarge : CompileError := ⟨.internalLimitExceeded, .l4Bind, "lazy row slot array exceeds the size cap"⟩

def tryNew (stateCount budgetBytes : Nat) : Except CompileError LazyRows :=
  if maxLazyRowsBytes < stateCount * maskSlotBytes then .error slotArrayTooLarge
  else .ok ⟨List.replicate stateCount none, 0, budgetBytes⟩

/-- Fills an empty slot: the reservation is kept only by a mask that was really computed. -/
def init (c : LazyRows) (state entryBytes : Nat) (compute : Except CompileError Bitmask) :
    MaskForge.SlotValue × LazyRows :=
  if c.retainedBytes + entryBytes ≤ c.budgetBytes then
    (.cached compute, { c with
      rows := c.rows.set state (some (.cached compute))
      retainedBytes := match compute with
        | .ok _ => c.retainedBytes + entryBytes
        | .error _ => c.retainedBytes })
  else (.uncached, { c with rows := c.rows.set state (some .uncached) })

/-- A slot is decided once: a cached outcome is served for good, an uncached one is computed at every query. -/
def getOrCompute (c : LazyRows) (state entryBytes : Nat) (compute : Except CompileError Bitmask) :
    Except CompileError Bitmask × LazyRows :=
  match (c.rows[state]?).join with
  | some (.cached r) => (r, c)
  | some .uncached => (compute, c)
  | none =>
    match c.init state entryBytes compute with
    | (.cached r, c') => (r, c')
    | (.uncached, c') => (compute, c')

end LazyRows

inductive MaskRows where
  | disabled
  | lazy (rows : LazyRows)

structure CompiledArtifact (eos : Nat) where
  engine : RefEngine
  vocab : CanonicalVocabulary eos
  startIsDead : Bool
  bindMode : BindMode
  index : Option CompiledIndex
  lazyTrie : Option VocabTrie
  packed : Option PackedMaskTable

/-- What the process decides for one bind: whether the provenance record validates, and the build gate's answer. -/
structure BindEnv where
  provenance : Except CompileError Unit
  buildPermit : Permit

namespace CompiledArtifact

variable {eos : Nat}

def startOutOfRange : CompileError := ⟨.artifactOutOfBounds, .artifactValidate, "artifact start state is out of range"⟩

def noAcceptingState : CompileError :=
  ⟨.malformed, .artifactValidate, "a non-empty-language artifact has no accepting state"⟩

def validate (env : BindEnv) (a : CompiledArtifact eos) : Except CompileError Unit :=
  env.provenance >>= fun _ =>
    if a.engine.stateCount ≤ a.engine.start then .error startOutOfRange
    else if !a.startIsDead && !(List.range a.engine.stateCount).any a.engine.isAccepting then .error noAcceptingState
    else .ok ()

def newFull (env : BindEnv) (e : RefEngine) (v : CanonicalVocabulary eos) (mode : BindMode)
    (index : Option CompiledIndex) (lazyTrie : Option VocabTrie) (packed : Option PackedMaskTable) :
    Except CompileError (CompiledArtifact eos × MaskRows) :=
  (if mode = .trieJointBytePacked then .ok .disabled
    else LazyRows.tryNew e.stateCount maxMaskCacheBytes >>= fun rows => .ok (.lazy rows)) >>= fun cache =>
    validate env ⟨e, v, e.isDead e.start, mode, index, lazyTrie, packed⟩ >>= fun _ =>
      .ok (⟨e, v, e.isDead e.start, mode, index, lazyTrie, packed⟩, cache)

def foreignTrie : CompileError :=
  ⟨.artifactMismatch, .l4Bind, "trie was built from a different vocabulary than the one being bound"⟩

def newNaive (env : BindEnv) (e : RefEngine) (v : CanonicalVocabulary eos) :
    Except CompileError (CompiledArtifact eos × MaskRows) :=
  newFull env e v .naive none none none

def newTriePrevalidated (d : Digests) (env : BindEnv) (e : RefEngine) (v : CanonicalVocabulary eos) (mode : BindMode)
    (t : VocabTrie) : Except CompileError (CompiledArtifact eos × MaskRows) :=
  if t.vocabFingerprint ≠ v.fingerprint then .error foreignTrie
  else buildDelta d {} t e mode >>= fun index => newFull env e v mode (some index) none none

def newLazyTrie (env : BindEnv) (e : RefEngine) (v : CanonicalVocabulary eos) (t : VocabTrie) :
    Except CompileError (CompiledArtifact eos × MaskRows) :=
  if t.vocabFingerprint ≠ v.fingerprint then .error foreignTrie
  else newFull env e v .trieJointByteLazy none (some t) none

def packedBuildPeakBytes (stateCount wpr : Nat) (t : VocabTrie) : Nat :=
  stateCount * wpr * 4 + packedHeaderAllowance + (stepMemoBytes + scratchHeaderAllowance)
    + t.maxDfsFrontier * stackEntryBytes

def packedOverBudget : CompileError :=
  ⟨.internalLimitExceeded, .l4Bind,
    "packed mask table plus walk scratch exceeds the memory budget; select byte_trie_lazy"⟩

def newPackedFromTrie (env : BindEnv) (e : RefEngine) (v : CanonicalVocabulary eos) (t : VocabTrie) :
    Except CompileError (CompiledArtifact eos × MaskRows) :=
  if t.vocabFingerprint ≠ v.fingerprint then .error foreignTrie
  else if maxPackedMaskBytes < packedBuildPeakBytes e.stateCount v.maskWidthWords t then .error packedOverBudget
  else env.buildPermit >>= fun _ =>
    fillPackedRows t e v.maskWidthWords v.maskVocabSize t.maxDfsFrontier >>= fun rows =>
      newFull env e v .trieJointBytePacked none none (some ⟨v.maskWidthWords, rows⟩)

/-- The binds of the five modes, over one trie. -/
def bind (d : Digests) (env : BindEnv) (e : RefEngine) (v : CanonicalVocabulary eos) (mode : BindMode) (t : VocabTrie) :
    Except CompileError (CompiledArtifact eos × MaskRows) :=
  match mode with
  | .naive => newNaive env e v
  | .trieJointByte | .trieJointClass => newTriePrevalidated d env e v mode t
  | .trieJointByteLazy => newLazyTrie env e v t
  | .trieJointBytePacked => newPackedFromTrie env e v t

/-! ## Queries -/

def packedMask (a : CompiledArtifact eos) (s : Nat) : Bitmask :=
  match a.packed.bind (fun p => p.row s) with
  | some words => Bitmask.fromWords words a.vocab.maskVocabSize
  | none => Bitmask.zeros a.vocab.maskVocabSize

def lazyNeedsTrie : CompileError := ⟨.artifactOutOfBounds, .l4Bind, "the lazy bind mode requires a byte-trie"⟩

def trieNeedsIndex : CompileError := ⟨.artifactOutOfBounds, .l4Bind, "a trie bind mode requires a compiled index"⟩

/-- An out-of-range state is empty before the trie is asked for. -/
def maskFromLazyWalk (a : CompiledArtifact eos) (permit : Permit) (s : Nat) : Except CompileError Bitmask :=
  if a.engine.stateCount ≤ s then .ok (Bitmask.zeros a.vocab.maskVocabSize)
  else match a.lazyTrie with
    | none => .error lazyNeedsTrie
    | some t => walkStateMaskInto t a.engine permit s (Bitmask.zeros a.vocab.maskVocabSize)

def maskFromIndex (a : CompiledArtifact eos) (s : Nat) : Except CompileError Bitmask :=
  match a.index with
  | none => .error trieNeedsIndex
  | some index =>
    match index.delta[s]? with
    | none => .ok (Bitmask.zeros a.vocab.maskVocabSize)
    | some row => row.foldlM (fun (m : Bitmask) x => m.set x.1) (Bitmask.zeros a.vocab.maskVocabSize)

/-- The allowed ordinary tokens at `s`; `permit` is the serving gate's answer, which only the lazy walk asks for. -/
def allowedMask (a : CompiledArtifact eos) (permit : Permit) (s : Nat) : Except CompileError Bitmask :=
  match a.bindMode with
  | .naive => a.engine.allowedTokensFromRecords s a.vocab.maskVocabSize a.vocab.prepared.records
  | .trieJointByte | .trieJointClass => a.maskFromIndex s
  | .trieJointByteLazy => a.maskFromLazyWalk permit s
  | .trieJointBytePacked => .ok (a.packedMask s)

def maskRowWords (a : CompiledArtifact eos) (s : Nat) : Option (List Word) := a.packed.bind (fun p => p.row s)

/-- `allowed_mask`, cached a state.  A packed artifact has no cache, and the source declares any other artifact without
one unreachable. -/
def cachedMask (a : CompiledArtifact eos) (permit : Permit) (s : Nat) (cache : MaskRows) :
    Except CompileError Bitmask × MaskRows :=
  if a.packed.isSome then (.ok (a.packedMask s), cache)
  else if a.engine.stateCount ≤ s then (a.allowedMask permit s, cache)
  else match cache with
    | .disabled => (a.allowedMask permit s, cache)
    | .lazy rows =>
      let r := rows.getOrCompute s (a.vocab.maskWidthWords * 4 + maskCacheEntryOverhead) (a.allowedMask permit s)
      (r.1, .lazy r.2)

def allowedIds (a : CompiledArtifact eos) (permit : Permit) (s : Nat) (cache : MaskRows) :
    Except CompileError (List Nat) × MaskRows :=
  let r := a.cachedMask permit s cache
  (r.1.map Bitmask.setIds, r.2)

/-- The caches a run of queries can leave. -/
inductive Queried (a : CompiledArtifact eos) (cache₀ : MaskRows) : MaskRows → Prop where
  | bound : Queried a cache₀ cache₀
  | query {cache : MaskRows} (permit : Permit) (s : Nat) :
    Queried a cache₀ cache → Queried a cache₀ (a.allowedIds permit s cache).2

end CompiledArtifact

/-! ## The matcher -/

inductive MatcherError where
  | illegalToken (token : Nat)
  deriving DecidableEq, Repr

structure Matcher where
  state : Nat
  bytesSeen : Nat
  deriving DecidableEq

namespace Matcher

variable {eos : Nat} (a : CompiledArtifact eos)

def new : Matcher := ⟨a.engine.start, 0⟩

/-- Consumes a token; the matcher is returned with the outcome, moved or not. -/
def advance (m : Matcher) (token : Nat) : Except MatcherError Unit × Matcher :=
  match a.vocab.tokenBytes token with
  | none => (.error (.illegalToken token), m)
  | some bytes =>
    match a.engine.consumeToken m.state bytes with
    | some next => (.ok (), ⟨next, m.bytesSeen + bytes.length⟩)
    | none => (.error (.illegalToken token), m)

/-- The matchers a run of advances can leave, failed ones included. -/
inductive Reached : Matcher → Prop where
  | start : Reached (new a)
  | advance {m : Matcher} (token : Nat) : Reached m → Reached (m.advance a token).2

end Matcher
end MaskForge
