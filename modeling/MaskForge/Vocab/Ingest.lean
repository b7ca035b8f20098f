import MaskForge.Vocab.Canonical
import MaskForge.Lib.CountingSort
/-!
# Ingest — the three ways a vocabulary comes in

A token map is checked and sorted by key (`build_vocabulary`, `PreparedVocabulary::build`); packed buffers and a dense,
id-ordered decode are checked as they are, sorted by an eight-byte prefix first, and each run of one key is merged into
one record.  All three leave the same arrays: one blob of bytes, one of ids, and a range into both for each record.  An
allocation the system refuses is not modelled.
-/
namespace MaskForge

open CountingSort (slice)

/-- `usize::saturating_mul`. -/
def satMul (a b : Nat) : Nat := min (a * b) usizeMax

/-! ## The token map -/

/-- `vocab::error::Error`. -/
inductive VocabularyError where
  | eosTokenDisallowed
  | emptyToken
  | emptyTokenIds
  deriving DecidableEq

structure VocabError where
  code : ErrorCode
  token : Option Nat
  detail : String
  deriving DecidableEq

/-- A hash map from keys to ids, as its entries in some order: no key has two. -/
structure TokenMap where
  entries : List TokenRecord
  keys : (entries.map Prod.fst).Nodup

structure Vocabulary where
  eosTokenId : Nat
  tokens : TokenMap

/-- The arm of `dedup_ids` for short lists: an id is kept unless it is among those kept before it. -/
def dedupShort (kept : List Nat) : List Nat → List Nat
  | [] => kept
  | id :: rest => if kept.contains id then dedupShort kept rest else dedupShort (kept ++ [id]) rest

/-- The arm for long lists: `retain` keeps what the set has not seen. -/
def retainUnseen (seen : List Nat) : List Nat → List Nat
  | [] => []
  | id :: rest => if seen.contains id then retainUnseen seen rest else id :: retainUnseen (id :: seen) rest

def dedupIds (ids : List Nat) : List Nat :=
  if ids.length ≤ 1 then ids
  else if ids.length ≤ 8 then dedupShort (ids.take 1) (ids.drop 1)
  else retainUnseen [] ids

/-- `values_mut`: every key keeps its place. -/
def TokenMap.mapValues (f : List Nat → List Nat) (m : TokenMap) : TokenMap where
  entries := m.entries.map fun t => (t.1, f t.2)
  keys := by
    rw [List.map_map]
    exact m.keys

def fromRawBytesMap (eosTokenId : Nat) (tokens : TokenMap) : Except VocabularyError Vocabulary :=
  if tokens.entries.any (fun t => t.1.isEmpty) then .error .emptyToken
  else if tokens.entries.any (fun t => t.2.isEmpty) then .error .emptyTokenIds
  else if tokens.entries.any (fun t => t.2.contains eosTokenId) then .error .eosTokenDisallowed
  else .ok ⟨eosTokenId, tokens.mapValues dedupIds⟩

def mapError (e : VocabularyError) (eosTokenId : Nat) : VocabError :=
  match e with
  | .emptyToken => ⟨.emptyToken, none, "vocabulary token has zero bytes"⟩
  | .emptyTokenIds => ⟨.malformedTokenizer, none, "token has an empty id list"⟩
  | .eosTokenDisallowed => ⟨.malformedTokenizer, some eosTokenId, "EOS token id present in the token map"⟩

def buildVocabulary (eosTokenId : Nat) (tokens : TokenMap) : Except VocabError Vocabulary :=
  (fromRawBytesMap eosTokenId tokens).mapError (mapError · eosTokenId)

/-- One turn of the loop of `build_vocab_core`: a vacant key takes the ids, an occupied one is extended by them. -/
def mergeEntry (entries : List TokenRecord) (item : TokenRecord) : List TokenRecord :=
  if item.1 ∈ entries.map Prod.fst then entries.map (fun e => if e.1 = item.1 then (e.1, e.2 ++ item.2) else e)
  else entries ++ [item]

theorem keys_mergeEntry (entries : List TokenRecord) (item : TokenRecord) : (mergeEntry entries item).map Prod.fst =
    if item.1 ∈ entries.map Prod.fst then entries.map Prod.fst else entries.map Prod.fst ++ [item.1] := by
  unfold mergeEntry
  split
  · rw [List.map_map]
    refine List.map_congr_left fun e _ => ?_
    rw [Function.comp_apply]
    split <;> rfl
  · rw [List.map_append, List.map_singleton]

def TokenMap.merge (m : TokenMap) (item : TokenRecord) : TokenMap where
  entries := mergeEntry m.entries item
  keys := by
    rw [keys_mergeEntry]
    split
    · exact m.keys
    · rename_i hvacant
      exact m.keys.append (List.nodup_singleton _) (by simpa using hvacant)

/-- The token map of a list of items: those of one key become one entry. -/
def tokenMap (items : List TokenRecord) : TokenMap := items.foldl TokenMap.merge ⟨[], List.nodup_nil⟩

/-! ## The arrays -/

/-- `TokenRecord`, a record's ranges into the blob and the ids. -/
structure TokenRange where
  byteStart : Nat
  byteEnd : Nat
  idStart : Nat
  idEnd : Nat

structure PreparedArrays where
  blob : List Byte
  records : List TokenRange
  ids : List Nat

def overflow (message : String) : CompileError := ⟨.internalLimitExceeded, .l4Bind, message⟩

def emptyToken : CompileError := ⟨.emptyToken, .vocabBuild, "vocabulary token has zero bytes"⟩

def eosAsOrdinaryId : CompileError := ⟨.malformedTokenizer, .vocabBuild, "EOS token id present in the token map"⟩

def emptyTokenIds : CompileError := ⟨.malformedTokenizer, .vocabBuild, "token has an empty id list"⟩

def malformedOffsets (message : String) : CompileError := ⟨.unsupported, .vocabBuild, message⟩

def blobOverflow : CompileError := overflow "prepared vocabulary blob exceeds the addressable range"

def idsOverflow : CompileError := overflow "prepared vocabulary id array exceeds the addressable range"

namespace PreparedArrays

def empty : PreparedArrays := ⟨[], [], []⟩

/-- `iter`: each record as its bytes and its ids. -/
def iter (a : PreparedArrays) : List TokenRecord :=
  a.records.map fun r => (slice a.blob r.byteStart r.byteEnd, slice a.ids r.idStart r.idEnd)

/-- `push_record`. -/
def pushRecord (a : PreparedArrays) (bytes : List Byte) (idsSlice : List Nat) : Except CompileError PreparedArrays :=
  checkedU32 blobOverflow a.blob.length >>= fun byteStart =>
  checkedU32 blobOverflow (a.blob ++ bytes).length >>= fun byteEnd =>
  checkedU32 idsOverflow a.ids.length >>= fun idStart =>
  checkedU32 idsOverflow (a.ids ++ idsSlice).length >>= fun idEnd =>
  .ok ⟨a.blob ++ bytes, a.records ++ [⟨byteStart, byteEnd, idStart, idEnd⟩], a.ids ++ idsSlice⟩

/-- A sum of lengths by `checked_add`. -/
def checkedTotal (err : CompileError) (lengths : List Nat) : Except CompileError Nat :=
  lengths.foldlM (fun acc n => if acc + n ≤ usizeMax then .ok (acc + n) else .error err) 0

def checkAddressableTotals (totalBytes totalIds : Nat) : Except CompileError (Nat × Nat) :=
  checkedU32 blobOverflow totalBytes >>= fun blobCap =>
  checkedU32 idsOverflow totalIds >>= fun idsCap => .ok (blobCap, idsCap)

/-- `from_sorted_pairs`; a record's ids are put in ascending order as it is copied. -/
def fromSortedPairs (pairs : List TokenRecord) : Except CompileError PreparedArrays :=
  checkedTotal (overflow "prepared vocabulary byte total overflows") (pairs.map fun p => p.1.length) >>=
    fun totalBytes =>
  checkedTotal (overflow "prepared vocabulary id total overflows") (pairs.map fun p => p.2.length) >>= fun totalIds =>
  checkAddressableTotals totalBytes totalIds >>= fun _ =>
  pairs.foldlM (fun a p => pushRecord a p.1 (p.2.mergeSort fun x y => decide (x ≤ y))) empty

/-- `PreparedVocabulary::build`. -/
def build (vocab : Vocabulary) : Except CompileError PreparedArrays :=
  fromSortedPairs (vocab.tokens.entries.mergeSort fun a b => decide (a.1 ≤ b.1))

/-! ## Packed buffers -/

/-- `PackedSortKey`: the index of a token and the first eight bytes of its key. -/
structure PackedSortKey where
  lexical : Nat
  index : Nat

/-- `lexical_prefix`: the first eight bytes, padded with zeros, read big-endian. -/
def lexicalPrefix (bytes : List Byte) : Nat :=
  (bytes.take 8 ++ List.replicate (8 - bytes.length) 0).foldl (fun acc (b : Byte) => acc * 256 + b.toNat) 0

/-- The comparison of the sort: by prefix, then by key. -/
def PackedSortKey.le (key : Nat → List Byte) (a b : PackedSortKey) : Bool :=
  if a.lexical = b.lexical then decide (key a.index ≤ key b.index) else decide (a.lexical < b.lexical)

/-- The sorted keys of the tokens at some indices. -/
def sortOrder (key : Nat → List Byte) (indices : List Nat) : List PackedSortKey :=
  (indices.map fun index => ⟨lexicalPrefix (key index), index⟩).mergeSort (PackedSortKey.le key)

/-- The loop over the sorted keys: each run of one key becomes one record, of the ids its indices are given by
`groupIds`. A turn takes one key or more, so their number is fuel enough. -/
def groupLoop (key : Nat → List Byte) (groupIds : List Nat → Except CompileError (List Nat)) :
    Nat → List PackedSortKey → PreparedArrays → Except CompileError PreparedArrays
  | _, [], a => .ok a
  | 0, _ :: _, a => .ok a
  | fuel + 1, first :: rest, a =>
    let same := fun k : PackedSortKey => decide (key k.index = key first.index)
    groupIds ((first :: rest.takeWhile same).map PackedSortKey.index) >>= fun ids =>
    pushRecord a (key first.index) ids >>= fun a => groupLoop key groupIds fuel (rest.dropWhile same) a

def maxPackedTokens : Nat := 2 ^ 24

def maxPackedProjectedPeakBytes : Nat := 2 ^ 31

/-- `size_of` of a record and of a sort key. -/
def tokenRangeBytes : Nat := 16

def projectedPeakBytes (tokenBytesLen tokenIdsLen tokenCount : Nat) : Nat :=
  let idsBytes := satMul tokenIdsLen 4
  let recordsBytes := satMul tokenCount tokenRangeBytes
  let orderBytes := satMul tokenCount tokenRangeBytes
  let groupScratch := satMul tokenIdsLen 4
  let denseWorstCase := satMul maxMaskTokens 4
  let sparseWorstCase := satMul tokenIdsLen conservativeSparseSlotBytes
  let idIndexWorstCase := max denseWorstCase sparseWorstCase
  satAdd (satAdd (satAdd (satAdd (satAdd tokenBytesLen idsBytes) recordsBytes) orderBytes) groupScratch)
    idIndexWorstCase

def validateCsrOffsets (offsets : List Nat) (len : Nat) : Except CompileError Unit :=
  match offsets.head?, offsets.getLast? with
  | some first, some last =>
    if first ≠ 0 then .error (malformedOffsets "offsets must start at 0")
    else if (offsets.zip offsets.tail).any (fun w => decide (w.2 < w.1)) then
      .error (malformedOffsets "offsets must be non-decreasing")
    else if last ≠ len then .error (malformedOffsets "offsets' final entry must equal the buffer length")
    else .ok ()
  | _, _ => .error (malformedOffsets "offsets must have at least one element")

/-- The row of a buffer between two neighbouring offsets. -/
def rowAt {α : Type} (buffer : List α) (offsets : List Nat) (i : Nat) : List α :=
  slice buffer (offsets[i]?.getD 0) (offsets[i + 1]?.getD 0)

/-- The ids of all tokens of a run, sorted and once each. -/
def mergedIds (idsOf : Nat → List Nat) (group : List Nat) : Except CompileError (List Nat) :=
  let groupIds := group.flatMap idsOf
  if groupIds.isEmpty then .error emptyTokenIds else .ok (sortDedup groupIds)

/-- The ids of the record of a run: one token with one id gives it as it is. -/
def packedGroupIds (idsOf : Nat → List Nat) (group : List Nat) : Except CompileError (List Nat) :=
  match group with
  | [i] =>
    match idsOf i with
    | [] => .error emptyTokenIds
    | [only] => .ok [only]
    | _ => mergedIds idsOf group
  | _ => mergedIds idsOf group

def buildFromPackedBudgeted (tokenBytes : List Byte) (byteOffsets tokenIds idOffsets : List Nat)
    (eosTokenId peakBudget : Nat) :
    Except CompileError PreparedArrays :=
  if byteOffsets.length ≠ idOffsets.length then
    .error (malformedOffsets "byte_offsets and id_offsets must have the same length")
  else
    validateCsrOffsets byteOffsets tokenBytes.length >>= fun _ =>
    validateCsrOffsets idOffsets tokenIds.length >>= fun _ =>
    let tokenCount := byteOffsets.length - 1
    let maxId := (tokenIds.max?.map (max · eosTokenId)).getD eosTokenId
    if maxPackedTokens < tokenCount then .error (malformedOffsets "packed token count exceeds the cap")
    else if peakBudget < projectedPeakBytes tokenBytes.length tokenIds.length tokenCount then
      .error (malformedOffsets "projected peak memory for this packed build exceeds the cap")
    else if (List.range tokenCount).any (fun i => decide (byteOffsets[i]?.getD 0 = byteOffsets[i + 1]?.getD 0)) then
      .error emptyToken
    else if tokenIds.contains eosTokenId then .error eosAsOrdinaryId
    else if maxMaskTokens < maxId + 1 then .error (overflow "mask width exceeds the token-id cap")
    else
      checkedU32 (overflow "packed token count exceeds the addressable range") tokenCount >>= fun tokenCount =>
      let order := sortOrder (rowAt tokenBytes byteOffsets) (List.range tokenCount)
      checkAddressableTotals tokenBytes.length tokenIds.length >>= fun _ =>
      groupLoop (rowAt tokenBytes byteOffsets) (packedGroupIds (rowAt tokenIds idOffsets)) order.length order empty

def buildFromPacked (tokenBytes : List Byte) (byteOffsets tokenIds idOffsets : List Nat) (eosTokenId : Nat) :
    Except CompileError PreparedArrays :=
  buildFromPackedBudgeted tokenBytes byteOffsets tokenIds idOffsets eosTokenId maxPackedProjectedPeakBytes

/-! ## A dense decode -/

/-- The ids of the record of a run: the indices themselves. -/
def denseGroupIds : List Nat → Except CompileError (List Nat)
  | [i] => .ok [i]
  | group => .ok (sortDedup group)

def buildFromDenseIdOrderedBudgeted (tokenBytes : List Byte) (byteOffsets : List Nat) (present : List Bool)
    (eosTokenId peakBudget : Nat) : Except CompileError PreparedArrays :=
  if byteOffsets.length ≠ present.length + 1 then
    .error (malformedOffsets "byte_offsets must have exactly one more entry than present")
  else
    validateCsrOffsets byteOffsets tokenBytes.length >>= fun _ =>
    let tokenCount := present.length
    let presentCount := present.count true
    if maxPackedTokens < tokenCount then .error (malformedOffsets "dense token count exceeds the cap")
    else if peakBudget < projectedPeakBytes tokenBytes.length presentCount presentCount then
      .error (malformedOffsets "projected peak memory for this dense build exceeds the cap")
    else if (List.range tokenCount).any
        (fun i => present[i]?.getD false && decide (byteOffsets[i]?.getD 0 = byteOffsets[i + 1]?.getD 0)) then
      .error emptyToken
    else if present[eosTokenId]?.getD false then .error eosAsOrdinaryId
    else
      let order := sortOrder (rowAt tokenBytes byteOffsets)
        ((List.range tokenCount).filter fun i => present[i]?.getD false)
      checkAddressableTotals tokenBytes.length presentCount >>= fun _ =>
      groupLoop (rowAt tokenBytes byteOffsets) denseGroupIds order.length order empty

def buildFromDenseIdOrdered (tokenBytes : List Byte) (byteOffsets : List Nat) (present : List Bool) (eosTokenId : Nat) :
    Except CompileError PreparedArrays :=
  buildFromDenseIdOrderedBudgeted tokenBytes byteOffsets present eosTokenId maxPackedProjectedPeakBytes

end PreparedArrays

end MaskForge
