import MaskForge.Automaton.RefEngine
import MaskForge.Vocab.Canonical
import MaskForge.Lib.Forest
import MaskForge.Lib.Worklist
/-!
# Trie — vocabulary tries in a compressed sparse-row layout

Two builders make the same kind of trie.  `buildByteCsr` reads byte-sorted records and keeps the path of the previous
token, so a new node is opened only past the common prefix; its edges are packed by a counting sort.  `buildFromRefs`
descends a node list under class keys and `flatten` renumbers it in preorder.  Both are proved to *spell* their records
(`VocabTrie.Spells`): a node lists a token exactly where the token's keys lead.
-/
namespace MaskForge

open CountingSort (slice bucket offset scatter start)

inductive TrieKind where
  | byte
  | classes
  deriving DecidableEq, Repr

structure VocabTrie where
  firstChild : List Nat
  tokenHead : List Nat
  edgeKey : List Nat
  childNode : List Nat
  leafTokens : List Nat
  kind : TrieKind
  vocabFingerprint : Nat
  partition : Option Nat
  maxDfsFrontier : Nat
  deriving DecidableEq

structure TrieBuildLimits where
  maxVocabEntries : Nat := 2 ^ 24
  maxNodes : Nat := 2 ^ 23
  maxTotalTokenBytes : Nat := 2 ^ 28
  maxLeafTokenIds : Nat := 2 ^ 25

def limitErr (msg : String) : CompileError := ⟨.internalLimitExceeded, .l4Bind, msg⟩

def badNode : CompileError := ⟨.artifactOutOfBounds, .l4Bind, "trie node id is out of range"⟩

def indexOverflow : CompileError := limitErr "trie index exceeds the addressable range"

namespace VocabTrie

def nodeCount (t : VocabTrie) : Nat := t.firstChild.length - 1

def range (offsets : List Nat) (n : Nat) : Except CompileError (Nat × Nat) :=
  match offsets[n]?, offsets[n + 1]? with
  | some lo, some hi => .ok (lo, hi)
  | _, _ => .error badNode

/-- The edge keys and child nodes of `n`. -/
def children (t : VocabTrie) (n : Nat) : Except CompileError (List Nat × List Nat) :=
  range t.firstChild n >>= fun r => .ok (slice t.edgeKey r.1 r.2, slice t.childNode r.1 r.2)

def leafTokensOf (t : VocabTrie) (n : Nat) : Except CompileError (List Nat) :=
  range t.tokenHead n >>= fun r => .ok (slice t.leafTokens r.1 r.2)

/-- A byte goes through the class table, a class id stays. -/
def classOfEdge (t : VocabTrie) (key : Nat) (e : RefEngine) : Nat :=
  match t.kind with
  | .byte => e.classOfByte (UInt8.ofNat key)
  | .classes => key

end VocabTrie

/-- The stack loop of `compute_max_dfs_frontier`: children are pushed in order, so the last one is on top. -/
def frontierLoop (kids : Nat → List Nat) : Nat → List Nat → Nat → Nat
  | 0, _, maximum => maximum
  | _ + 1, [], maximum => maximum
  | f + 1, n :: rest, maximum =>
    frontierLoop kids f ((kids n).reverse ++ rest) (max maximum ((kids n).reverse ++ rest).length)

def computeMaxDfsFrontier (firstChild childNode : List Nat) : Nat :=
  if firstChild.length ≤ 1 then 0
  else frontierLoop (fun n => slice childNode (firstChild[n]?.getD 0) (firstChild[n + 1]?.getD 0))
    (Worklist.fuel (firstChild.length - 1) childNode.length) [0] 1

/-! ## The byte builder -/

def checkTotalBytes (limits : TrieBuildLimits) (pairs : List TokenRecord) : Except CompileError Unit :=
  if limits.maxTotalTokenBytes < (pairs.map (fun r => r.1.length)).sum then
    .error (limitErr "total token bytes exceed the trie build limit")
  else .ok ()

def commonPrefixLen : List Byte → List Byte → Nat
  | a :: as, b :: bs => if a = b then commonPrefixLen as bs + 1 else 0
  | _, _ => 0

def isStrictlyAscending : List Nat → Bool
  | a :: b :: rest => decide (a < b) && isStrictlyAscending (b :: rest)
  | _ => true

/-- The build loop's variables: the edges as `(parent, key, child)` in the order they are opened, the terminal nodes
with their ids, and the path of the previous token. -/
structure CsrBuild where
  edges : List (Nat × (Nat × Nat)) := []
  leaves : List (Nat × List Nat) := []
  path : List Nat := [0]
  prev : List Byte := []
  nodeCount : Nat := 1
  leafIdTotal : Nat := 0

namespace CsrBuild

/-- Opens one node for each byte past the common prefix. -/
def extend (limits : TrieBuildLimits) : CsrBuild → Nat → List Byte → Except CompileError (CsrBuild × Nat)
  | s, cur, [] => .ok (s, cur)
  | s, cur, b :: bs =>
    if limits.maxNodes ≤ s.nodeCount then .error (limitErr "trie node count exceeds the build fuel")
    else if u32Size ≤ s.nodeCount + 1 then .error (limitErr "trie node count overflow")
    else extend limits
      { s with
        edges := s.edges ++ [(cur, (b.toNat, s.nodeCount))]
        path := s.path ++ [s.nodeCount]
        nodeCount := s.nodeCount + 1 } s.nodeCount bs

def pushToken (limits : TrieBuildLimits) (s : CsrBuild) (r : TokenRecord) : Except CompileError CsrBuild :=
  let lcp := commonPrefixLen s.prev r.1
  let path := s.path.take (lcp + 1)
  extend limits { s with path := path } (path[lcp]?.getD 0) (r.1.drop lcp) >>= fun sc =>
    if r.2.isEmpty then .ok { sc.1 with prev := r.1 }
    else if limits.maxLeafTokenIds < sc.1.leafIdTotal + r.2.length then
      .error (limitErr "total leaf token ids exceed the trie build limit")
    else .ok { sc.1 with
      leaves := sc.1.leaves ++ [(sc.2, r.2)], leafIdTotal := sc.1.leafIdTotal + r.2.length, prev := r.1 }

end CsrBuild

/-- The leaf loop: node by node, the next terminal entry is copied where its node comes up. -/
def fillLeaves : List Nat → List (Nat × List Nat) → List Nat × List Nat →
    Except CompileError ((List Nat × List Nat) × List (Nat × List Nat))
  | [], pending, (heads, tokens) =>
    checkedU32 indexOverflow tokens.length >>= fun h => .ok ((heads ++ [h], tokens), pending)
  | node :: nodes, pending, (heads, tokens) =>
    checkedU32 indexOverflow tokens.length >>= fun h =>
      match pending with
      | [] => fillLeaves nodes [] (heads ++ [h], tokens)
      | (leaf, ids) :: rest =>
        if leaf = node then
          fillLeaves nodes rest (heads ++ [h], tokens ++ if isStrictlyAscending ids then ids else sortDedup ids)
        else fillLeaves nodes ((leaf, ids) :: rest) (heads ++ [h], tokens)

def unplacedTerminal : CompileError := ⟨.artifactOutOfBounds, .l4Bind, "trie build left a terminal node unplaced"⟩

/-- Packs the build: offsets are the prefix sums of the edge counts, the edge arrays a scatter under one cursor a node.
The sums stay below the node count, so the source's overflow checks on them never fire. -/
def packCsr (fingerprint : Nat) (s : CsrBuild) : Except CompileError VocabTrie :=
  let firstChild := (List.range (s.nodeCount + 1)).map (offset s.edges)
  let packed := (scatter (0, 0) s.nodeCount s.edges).out
  fillLeaves (List.range s.nodeCount) s.leaves ([], []) >>= fun filled =>
    if filled.2.isEmpty then
      .ok
        { firstChild := firstChild
          tokenHead := filled.1.1
          edgeKey := packed.map Prod.fst
          childNode := packed.map Prod.snd
          leafTokens := filled.1.2
          kind := .byte
          vocabFingerprint := fingerprint
          partition := none
          maxDfsFrontier := computeMaxDfsFrontier firstChild (packed.map Prod.snd) }
    else .error unplacedTerminal

def buildByteCsr (limits : TrieBuildLimits) (fingerprint : Nat) (pairs : List TokenRecord) :
    Except CompileError VocabTrie :=
  pairs.foldlM (CsrBuild.pushToken limits) {} >>= packCsr fingerprint

def buildByteLimited (limits : TrieBuildLimits) (fingerprint : Nat) (pairs : List TokenRecord) :
    Except CompileError VocabTrie :=
  if limits.maxVocabEntries < pairs.length then
    .error (limitErr "vocabulary entry count exceeds the trie build limit")
  else checkTotalBytes limits pairs >>= fun _ => buildByteCsr limits fingerprint pairs

def VocabTrie.buildByteFromPrepared {eos : Nat} (p : PreparedVocabulary eos) (fingerprint : Nat) :
    Except CompileError VocabTrie :=
  buildByteLimited {} fingerprint p.records

/-! ## The class builder -/

structure BuildNode where
  children : List (Nat × Nat) := []
  tokens : List Nat := []

/-- The insertion `binary_search` answers: before the first larger key. -/
def insertChild (kc : Nat × Nat) : List (Nat × Nat) → List (Nat × Nat)
  | [] => [kc]
  | x :: xs => if kc.1 < x.1 then kc :: x :: xs else x :: insertChild kc xs

/-- The children of a build node. -/
def childrenAt (nodes : List BuildNode) (i : Nat) : List (Nat × Nat) :=
  match nodes[i]? with
  | none => []
  | some b => b.children

/-- Walks or opens the path of `bytes`; children stay sorted by key, so the binary search finds a key or its place. -/
def descend (key : Byte → Nat) (maxNodes : Nat) : List BuildNode → Nat → List Byte →
    Except CompileError (List BuildNode × Nat)
  | nodes, cur, [] => .ok (nodes, cur)
  | nodes, cur, b :: bs =>
    match (childrenAt nodes cur).find? (fun kc => kc.1 == key b) with
    | some kc => descend key maxNodes nodes kc.2 bs
    | none =>
      if maxNodes ≤ nodes.length then .error (limitErr "trie node count exceeds the build fuel")
      else descend key maxNodes
        ((nodes ++ [({} : BuildNode)]).modify cur
          (fun n => { n with children := insertChild (key b, nodes.length) n.children }))
        nodes.length bs

/-- One record of the class build. -/
def insertRecord (limits : TrieBuildLimits) (key : Byte → Nat) (s : List BuildNode × Nat) (r : TokenRecord) :
    Except CompileError (List BuildNode × Nat) :=
  descend key limits.maxNodes s.1 0 r.1 >>= fun nl =>
    if limits.maxLeafTokenIds < s.2 + r.2.length then
      .error (limitErr "total leaf token ids exceed the trie build limit")
    else .ok (nl.1.modify nl.2 (fun n => { n with tokens := n.tokens ++ r.2 }), s.2 + r.2.length)

/-- The last index of each node in the order: `final_of` is written front to back. -/
def finalOf (order : List Nat) (b : Nat) : Nat :=
  (order.zipIdx.foldl (fun acc x => if x.1 = b then x.2 else acc) 0)

/-- The emission loop of `flatten`. -/
def emitNodes (nodes : List BuildNode) (order : List Nat) : List Nat → VocabTrie → Except CompileError VocabTrie
  | [], t =>
    checkedU32 indexOverflow t.edgeKey.length >>= fun fc =>
      checkedU32 indexOverflow t.leafTokens.length >>= fun th =>
        .ok { t with firstChild := t.firstChild ++ [fc], tokenHead := t.tokenHead ++ [th] }
  | b :: bs, t =>
    checkedU32 indexOverflow t.edgeKey.length >>= fun fc =>
      checkedU32 indexOverflow t.leafTokens.length >>= fun th =>
        emitNodes nodes order bs
          { t with
            firstChild := t.firstChild ++ [fc]
            tokenHead := t.tokenHead ++ [th]
            edgeKey := t.edgeKey ++ (childrenAt nodes b).map Prod.fst
            childNode := t.childNode ++ (childrenAt nodes b).map (fun kc => finalOf order kc.2)
            leafTokens := t.leafTokens ++ sortDedup ((nodes[b]?.getD {}).tokens) }

/-- The nodes in preorder: the stack is extended in reverse, so the first child is on top. -/
def preorderOf (nodes : List BuildNode) : List Nat :=
  Worklist.preorder (fun b => (childrenAt nodes b).map Prod.snd)
    (Worklist.fuel nodes.length ((nodes.map (fun b => b.children.length)).sum)) [0]

/-- The arrays before the first node is emitted. -/
def VocabTrie.unfilled (kind : TrieKind) (fingerprint : Nat) (partition : Option Nat) : VocabTrie :=
  ⟨[], [], [], [], [], kind, fingerprint, partition, 0⟩

def flatten (nodes : List BuildNode) (kind : TrieKind) (fingerprint : Nat) (partition : Option Nat) :
    Except CompileError VocabTrie :=
  let order := preorderOf nodes
  checkedU32 indexOverflow (order.length - 1) >>= fun _ =>
    emitNodes nodes order order (VocabTrie.unfilled kind fingerprint partition) >>= fun t =>
      .ok { t with maxDfsFrontier := computeMaxDfsFrontier t.firstChild t.childNode }

/-- The order `sort_unstable` puts borrowed pairs in: by bytes, then by ids. -/
def pairLe (a b : TokenRecord) : Bool := decide (a.1 < b.1) || (decide (a.1 = b.1) && decide (a.2 ≤ b.2))

def buildFromRefs (limits : TrieBuildLimits) (key : Byte → Nat) (kind : TrieKind) (fingerprint : Nat)
    (partition : Option Nat) (pairs : List TokenRecord) : Except CompileError VocabTrie :=
  checkTotalBytes limits pairs >>= fun _ =>
    (pairs.mergeSort pairLe).foldlM (insertRecord limits key) ([{}], 0) >>= fun s =>
      flatten s.1 kind fingerprint partition

def buildClassLimited (d : Digests) (limits : TrieBuildLimits) (fingerprint : Nat) (e : RefEngine)
    (pairs : List TokenRecord) : Except CompileError VocabTrie :=
  if limits.maxVocabEntries < pairs.length then
    .error (limitErr "vocabulary entry count exceeds the trie build limit")
  else buildFromRefs limits e.classOfByte .classes fingerprint (some (d.partition e.classOfByte)) pairs

def VocabTrie.buildClass (d : Digests) (fingerprint : Nat) (e : RefEngine) (pairs : List TokenRecord) :
    Except CompileError VocabTrie :=
  buildClassLimited d {} fingerprint e pairs

end MaskForge
