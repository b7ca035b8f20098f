import MaskForge.Index.TrieSpells
import MaskForge.Lib.PackedBits
import MaskForge.Lib.Utf8
import MaskForge.Structured.PendingScalar
/-!
# Slice — the vocabulary cut into tokens a string body can take whole

A token is *safe* if it is plain text: bytes a string body takes as they are, and whole characters.  Of the others
those that stay inside a body are kept apart from those that meet its end or break it.  Safe tokens are counted by
bytes and by characters, up to 32 of each, so that a bound on either is one mask.  What the tries and masks weigh is
the allocator's answer, and admission is the memory gate's.
-/
namespace MaskForge

open JsonStringDecoder (checkedUsize)

/-- What the build asks of its surroundings: a trie's heap bytes, the catalogue's own size, and the memory gate. -/
structure SliceEnv where
  heapBytes : VocabTrie → Nat
  catalogBytes : Nat
  acquire : Nat → Except CompileError Unit

def maxCatalogBytes : Nat := 64 * 2 ^ 20

def maxBoundedLen : Nat := 32

/-- `size_of::<u64>()` and `size_of::<Box<[u64]>>()`. -/
def wordBytes : Nat := 8
def boxedMaskBytes : Nat := 16

abbrev TokenMask := List (BitVec 64)

structure TokenSlice where
  tokenMask : TokenMask
  filteredTrie : VocabTrie
  scalarCount : Option Nat
  maxByteLen : Nat

structure TokenSliceCatalog where
  safe : TokenSlice
  uncertainTrie : VocabTrie
  bodyExtra : TokenSlice
  bodyUncertainTrie : VocabTrie
  bodyBoundaryTrie : VocabTrie
  bodyBoundaryMaxBytes : Nat
  bodyInvalidTrie : VocabTrie
  bodyInvalidMaxBytes : Nat
  scalarOverflowTrie : VocabTrie
  retainedBytes : Nat
  byteLenLe : List TokenMask
  scalarLenLe : List TokenMask
  maxScalarLen : Nat

def sliceError : CompileError :=
  ⟨.internalLimitExceeded, .l4Bind, "token slice catalogue allocation or size limit exceeded"⟩

/-! ## Classes of tokens -/

/-- The characters of a token that is plain text, if a `u16` counts them. -/
def safeScalarCount (bytes : List Byte) : Option Nat :=
  if bytes = [] ∨ bytes.any (fun b => b < 0x20 ∨ b = 0x22 ∨ b = 0x5c) then none
  else match strFromUtf8 bytes with
    | none => none
    | some text => if text.length < 2 ^ 16 then some text.length else none

inductive BodyClass where
  | within
  | boundary
  | invalid
  deriving DecidableEq

/-- The loop of `body_class`. -/
def bodyClassLoop : JsonStringDecoder → List Byte → BodyClass
  | _, [] => .within
  | d, b :: bs =>
    if b = 0x22 ∧ d.atBoundary then .boundary
    else match d.push b with
      | (.invalid, _) => .invalid
      | (_, d') => bodyClassLoop d' bs

/-- `body_class`; the source's `Prefix` is `within`. -/
def bodyClass (bytes : List Byte) : BodyClass := if bytes = [] then .invalid else bodyClassLoop .new bytes

def bodyPrefix (bytes : List Byte) : Bool := decide (bodyClass bytes = .within)

def bodyExtra (bytes : List Byte) : Bool := (safeScalarCount bytes).isNone && bodyPrefix bytes

/-! ## Masks -/

variable {eos : Nat}

/-- `mask_vocab_size().div_ceil(64)`. -/
def maskWords (v : CanonicalVocabulary eos) : Nat := (v.maskVocabSize + 63) / 64

def setId (mask : TokenMask) (id : Nat) : Except CompileError TokenMask :=
  if id / 64 < mask.length then .ok (PackedBits.insert mask id) else .error sliceError

def tokenMaskWhere (v : CanonicalVocabulary eos) (include? : List Byte → Bool) : Except CompileError TokenMask :=
  v.prepared.records.foldlM (fun mask r => if include? r.1 then r.2.foldlM setId mask else .ok mask)
    (List.replicate (maskWords v) 0)

def safeTokenMask (v : CanonicalVocabulary eos) : Except CompileError TokenMask :=
  tokenMaskWhere v fun bytes => (safeScalarCount bytes).isSome

/-- The level of a token in `cumulative_masks`: a safe one, by its size. -/
def levelOf (measure : List Byte → Option Nat) (bytes : List Byte) : Option Nat :=
  if (safeScalarCount bytes).isNone then none
  else (measure bytes).bind fun size => if size = 0 ∨ maxBoundedLen < size then none else some (size - 1)

def setLevel (level : Nat) (exact : List TokenMask) (id : Nat) : Except CompileError (List TokenMask) :=
  match exact[level]? with
  | none => .error sliceError
  | some mask => setId mask id >>= fun mask => .ok (exact.set level mask)

/-- Every level takes in the one before it. -/
def accumulate (previous : TokenMask) : List TokenMask → List TokenMask
  | [] => []
  | mask :: rest => PackedBits.union mask previous :: accumulate (PackedBits.union mask previous) rest

def cumulativeMasks (v : CanonicalVocabulary eos) (measure : List Byte → Option Nat) :
    Except CompileError (List TokenMask) :=
  v.prepared.records.foldlM
      (fun exact r => match levelOf measure r.1 with
        | none => .ok exact
        | some level => r.2.foldlM (setLevel level) exact)
      (List.replicate maxBoundedLen (List.replicate (maskWords v) 0)) >>= fun exact =>
    match exact with
    | [] => .ok []
    | first :: rest => .ok (first :: accumulate first rest)

/-! ## Weights -/

def checkedSum (xs : List Nat) : Option Nat := xs.foldlM (fun total x => checkedUsize (total + x)) 0

/-- What the records weigh at so much a byte and so much an id. -/
def recordBytes (perByte perId : Nat) (records : List TokenRecord) : Option Nat :=
  records.foldlM (fun total r => do
    let bytes ← checkedUsize (r.1.length * perByte)
    let total ← checkedUsize (total + bytes)
    let ids ← checkedUsize (r.2.length * perId)
    checkedUsize (total + ids)) 0

def estimatedBuildBytes (env : SliceEnv) (v : CanonicalVocabulary eos) : Except CompileError Nat :=
  let records := v.prepared.records
  let estimate := do
    let maskBytes ← checkedUsize (maskWords v * wordBytes)
    let body ← recordBytes 48 16 (records.filter fun r => (safeScalarCount r.1).isNone)
    let body ← checkedUsize (body + maskBytes)
    let overflow ← recordBytes 24 8 (records.filter fun r => (safeScalarCount r.1).any (maxBoundedLen < ·))
    let all ← checkedUsize ((records.map fun r => r.1.length).sum * 24)
    let ids ← checkedUsize (v.prepared.totalIds * 8)
    let table ← checkedUsize ((maskBytes + boxedMaskBytes) * (2 * maxBoundedLen))
    checkedSum [all, ids, maskBytes, 7 * 16, overflow, body, table, env.catalogBytes]
  match estimate with
  | some bytes => .ok bytes
  | none => .error sliceError

/-- `retained_bytes` and what the build adds to it. -/
def retainedCatalogBytes (env : SliceEnv) (tries : List VocabTrie) (masks tables : List TokenMask) :
    Except CompileError Nat :=
  let weight (mask : TokenMask) : Nat := mask.length * wordBytes
  match checkedSum (tries.map env.heapBytes ++ masks.map weight ++ tables.map weight ++
      [env.catalogBytes, 2 * maxBoundedLen * boxedMaskBytes]) with
  | some bytes => .ok bytes
  | none => .error sliceError

/-! ## The catalogue -/

def VocabTrie.buildByteFilteredFromPrepared (p : PreparedVocabulary eos) (fingerprint : Nat) (keep : List Byte → Bool) :
    Except CompileError VocabTrie :=
  let pairs := p.records.filter fun r => keep r.1
  checkTotalBytes {} pairs >>= fun _ => buildByteCsr {} fingerprint pairs

/-- The largest measure of the records that have one. -/
def maxOver (v : CanonicalVocabulary eos) (measure : List Byte → Option Nat) : Nat :=
  ((v.prepared.records.filterMap fun r => measure r.1).max?).getD 0

def lengthWhere (keep : List Byte → Bool) (bytes : List Byte) : Option Nat :=
  if keep bytes then some bytes.length else none

namespace TokenSliceCatalog

def tryBuildWithBudget (env : SliceEnv) (v : CanonicalVocabulary eos) (byteBudget : Nat) :
    Except CompileError (Option TokenSliceCatalog) := do
  let estimated ← estimatedBuildBytes env v
  if byteBudget < estimated then
    return none
  env.acquire estimated
  let build := VocabTrie.buildByteFilteredFromPrepared v.prepared v.fingerprint
  let safeTrie ← build fun bytes => (safeScalarCount bytes).isSome
  let uncertainTrie ← build fun bytes => (safeScalarCount bytes).isNone
  let tokenMask ← safeTokenMask v
  let bodyExtraTrie ← build MaskForge.bodyExtra
  let bodyUncertainTrie ← build fun bytes => !bodyPrefix bytes
  let bodyExtraMask ← tokenMaskWhere v MaskForge.bodyExtra
  let bodyBoundaryTrie ← build fun bytes => bodyClass bytes = .boundary
  let bodyInvalidTrie ← build fun bytes => bodyClass bytes = .invalid
  let scalarOverflowTrie ← build fun bytes => (safeScalarCount bytes).any (maxBoundedLen < ·)
  let byteLenLe ← cumulativeMasks v fun bytes => some bytes.length
  let scalarLenLe ← cumulativeMasks v safeScalarCount
  let retained ← retainedCatalogBytes env
    [safeTrie, uncertainTrie, scalarOverflowTrie, bodyExtraTrie, bodyUncertainTrie, bodyBoundaryTrie, bodyInvalidTrie]
    [tokenMask, bodyExtraMask] (byteLenLe ++ scalarLenLe)
  if byteBudget < retained then
    return none
  return some {
    safe := ⟨tokenMask, safeTrie, none, maxOver v (lengthWhere fun bytes => (safeScalarCount bytes).isSome)⟩
    uncertainTrie := uncertainTrie
    bodyExtra := ⟨bodyExtraMask, bodyExtraTrie, none, maxOver v (lengthWhere MaskForge.bodyExtra)⟩
    bodyUncertainTrie := bodyUncertainTrie
    bodyBoundaryTrie := bodyBoundaryTrie
    bodyBoundaryMaxBytes := maxOver v (lengthWhere fun bytes => bodyClass bytes = .boundary)
    bodyInvalidTrie := bodyInvalidTrie
    bodyInvalidMaxBytes := maxOver v (lengthWhere fun bytes => bodyClass bytes = .invalid)
    scalarOverflowTrie := scalarOverflowTrie
    retainedBytes := retained
    byteLenLe := byteLenLe
    scalarLenLe := scalarLenLe
    maxScalarLen := maxOver v safeScalarCount }

def tryBuild (env : SliceEnv) (v : CanonicalVocabulary eos) : Except CompileError (Option TokenSliceCatalog) :=
  tryBuildWithBudget env v maxCatalogBytes

end TokenSliceCatalog

/-! ## Bounded masks -/

structure BoundedMask where
  bytes : TokenMask
  scalars : Option TokenMask
  overflow : Bool

namespace BoundedMask

def needsOverflowWalk (m : BoundedMask) : Bool := m.overflow

def word (m : BoundedMask) (index : Nat) : BitVec 64 :=
  let word := m.bytes[index]?.getD 0
  match m.scalars with
  | some scalars => word &&& scalars[index]?.getD 0
  | none => word

/-- Bit `id` of the mask. -/
def bit (m : BoundedMask) (id : Nat) : Bool := (m.word (id / 64)).getLsbD (id % 64)

end BoundedMask

namespace TokenSliceCatalog

def boundedBytes (c : TokenSliceCatalog) (maxBytes : Nat) : Option TokenMask :=
  if c.safe.maxByteLen ≤ maxBytes then some c.safe.tokenMask
  else if maxBytes = 0 then some []
  else c.byteLenLe[maxBytes - 1]?

/-- The scalar table needed for a limit; `some none` where no token exceeds it. -/
def boundedScalars (c : TokenSliceCatalog) : Option Nat → Option (Option TokenMask)
  | none => some none
  | some limit =>
    if c.maxScalarLen ≤ limit then some none
    else if limit = 0 then some (some [])
    else (c.scalarLenLe[min limit maxBoundedLen - 1]?).map some

def boundedMask (c : TokenSliceCatalog) (maxBytes : Nat) (maxScalars : Option Nat) : Option BoundedMask :=
  (c.boundedBytes maxBytes).bind fun bytes => (c.boundedScalars maxScalars).map fun scalars =>
    ⟨bytes, scalars, maxScalars.any fun n => maxBoundedLen < n ∧ n < c.maxScalarLen⟩

end TokenSliceCatalog
end MaskForge
