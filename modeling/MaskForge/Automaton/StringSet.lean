import MaskForge.Automaton.Graph
import MaskForge.Lib.PathMerge
import MaskForge.Structured.JsonString
/-!
# StringSet — the automaton of all JSON spellings of some strings

The strings go into a trie of characters.  Every node of the trie is a state, and every spelling of a character is laid
as a path from the node before it to the node behind it, so that the spellings share what they start with.  No spelling
is the start of another, since the decoder of string bodies takes each of them to one character: so the paths never
clash, and the automaton accepts exactly the string texts the decoder takes to one of the strings.
-/
namespace MaskForge
namespace StringSet

open LabelTrie (kids ends)
open PathMerge (Coded Laid Extends Strung)

/-- `DecodedTrie`, filled with some strings. -/
def decodedTrie (values : List Text) : Except CompileError (LabelTrie.Rows Char) :=
  LabelTrie.build maxGraphStates graphLimit values

def notDeterministic : CompileError := graphError "JSON scalar spellings are not deterministic"

/-- `add_path`. -/
def addPath (states : List ByteState) (source target : Nat) (bytes : List Byte) :
    Except CompileError (List ByteState) :=
  PathMerge.addPath maxGraphStates graphLimit notDeterministic states source target bytes

/-- The four hexadecimal digits of a code, in lower case. -/
def codeDigits (code : Nat) : List Nat := [code / 0x1000 % 16, code / 0x100 % 16, code / 0x10 % 16, code % 16]

/-- `to_ascii_uppercase`, on a digit. -/
def upperDigit (v : Nat) : Byte := UInt8.ofNat (0x37 + v)

/-- One more digit on every path, a letter in both cases. -/
def pushDigit (paths : List (List Byte)) (v : Nat) : List (List Byte) :=
  if v < 10 then paths.map (· ++ [hexLetter v])
  else paths.map (· ++ [hexLetter v]) ++ paths.map (· ++ [upperDigit v])

def unicodeEscapePaths (code : Nat) : List (List Byte) := (codeDigits code).foldl pushDigit [unicodeEscape []]

/-- The letter of a character's short escape. -/
def shortLetter (scalar : Char) : Option Byte :=
  if scalar = '"' then some 0x22
  else if scalar = '\\' then some 0x5c
  else if scalar = '/' then some 0x2f
  else if scalar = '\x08' then some 0x62
  else if scalar = '\x0c' then some 0x66
  else if scalar = '\n' then some 0x6e
  else if scalar = '\r' then some 0x72
  else if scalar = '\t' then some 0x74
  else none

def addPaths (source target : Nat) (states : List ByteState) (paths : List (List Byte)) :
    Except CompileError (List ByteState) :=
  paths.foldlM (fun states path => addPath states source target path) states

/-- The paths of `add_scalar_spellings`, in its order. -/
def scalarPaths (scalar : Char) : List (List Byte) :=
  (if 0x20 ≤ scalar.toNat ∧ scalar ≠ '"' ∧ scalar ≠ '\\' then [String.utf8EncodeChar scalar] else []) ++
  ((shortLetter scalar).map fun letter => [0x5c, letter]).toList ++
  if scalar.toNat ≤ 0xffff then unicodeEscapePaths scalar.toNat
  else
    let adjusted := scalar.toNat - 0x10000
    (unicodeEscapePaths (0xd800 + adjusted / 0x400)).flatMap fun highPath =>
      (unicodeEscapePaths (0xdc00 + adjusted % 0x400)).map fun lowPath => highPath ++ lowPath

def addScalarSpellings (states : List ByteState) (source target : Nat) (scalar : Char) :
    Except CompileError (List ByteState) :=
  addPaths source target states (scalarPaths scalar)

/-- The paths out of one node: the closing quote where a string ends, and the spellings of each character. -/
def addNode (accept : Nat) (states : List ByteState) (node : (Bool × List (Char × Nat)) × Nat) :
    Except CompileError (List ByteState) :=
  checkedU32 graphLimit (node.2 + 1) >>= fun source =>
  (if node.1.1 then addPath states source accept [0x22] else .ok states) >>= fun states =>
  node.1.2.foldlM (fun states edge =>
    checkedU32 graphLimit (edge.2 + 1) >>= fun target => addScalarSpellings states source target edge.1) states

/-- The states before any path: the start, one a node, and the one that accepts. -/
def jsonStates (nodes : LabelTrie.Rows Char) : List ByteState :=
  (false, []) :: nodes.map (fun _ => (false, [])) ++ [(true, [])]

/-- `into_json_graph`, up to the layout of the graph. -/
def pathStates (nodes : LabelTrie.Rows Char) : Except CompileError (List ByteState) :=
  addPath (jsonStates nodes) 0 1 [0x22] >>= fun states =>
  checkedU32 graphLimit (states.length - 1) >>= fun accept => nodes.zipIdx.foldlM (addNode accept) states

def intoJsonGraph (nodes : LabelTrie.Rows Char) : Except CompileError AutomatonGraph :=
  pathStates nodes >>= fun states => AutomatonGraph.fromByteStates states 0

def stringSet (values : List Text) : Except CompileError AutomatonGraph := decodedTrie values >>= intoJsonGraph

/-! ### The spellings of a character -/

/-- A digit is written as its letter, or as the capital of that. -/
theorem hexDigit_letters {v : Nat} (hv : v < 16) (b : Byte) :
    hexDigit b = some v ↔ b = hexLetter v ∨ 10 ≤ v ∧ b = upperDigit v := by
  have hsmall : ∀ {n : Nat}, n < 256 → (b = UInt8.ofNat n ↔ b.toNat = n) := by
    intro n hn
    rw [← UInt8.toNat_inj, UInt8.toNat_ofNat', Nat.mod_eq_of_lt hn]
  have hlower : b = hexLetter v ↔ b.toNat = if v < 10 then 0x30 + v else 0x57 + v := by
    unfold hexLetter
    split
    · exact hsmall (by omega)
    · exact hsmall (by omega)
  rw [hlower, upperDigit, hsmall (by omega), hexDigit_iff]
  split <;> omega

theorem mem_pushDigit {paths : List (List Byte)} {v : Nat} (hv : v < 16) {p : List Byte} :
    p ∈ pushDigit paths v ↔ ∃ q ∈ paths, ∃ b, hexDigit b = some v ∧ p = q ++ [b] := by
  simp only [hexDigit_letters hv]
  unfold pushDigit
  split
  · rename_i hten
    simp only [List.mem_map]
    constructor
    · rintro ⟨q, hq, rfl⟩
      exact ⟨q, hq, _, .inl rfl, rfl⟩
    · rintro ⟨q, hq, b, rfl | ⟨hle, -⟩, rfl⟩
      · exact ⟨q, hq, rfl⟩
      · omega
  · rename_i hten
    simp only [List.mem_append, List.mem_map]
    constructor
    · rintro (⟨q, hq, rfl⟩ | ⟨q, hq, rfl⟩)
      · exact ⟨q, hq, _, .inl rfl, rfl⟩
      · exact ⟨q, hq, _, .inr ⟨by omega, rfl⟩, rfl⟩
    · rintro ⟨q, hq, b, rfl | ⟨-, rfl⟩, rfl⟩
      · exact .inl ⟨q, hq, rfl⟩
      · exact .inr ⟨q, hq, rfl⟩

/-- **The escapes of a code**: four digits of that value, in either case. -/
theorem mem_unicodeEscapePaths {code : Nat} (hcode : code < 0x10000) {p : List Byte} :
    p ∈ unicodeEscapePaths code ↔ ∃ ds, p = unicodeEscape ds ∧ ds.length = 4 ∧ hexValue ds = some code := by
  have hlt : ∀ n, n % 16 < 16 := fun n => Nat.mod_lt n (by decide)
  unfold unicodeEscapePaths codeDigits
  simp only [List.foldl_cons, List.foldl_nil, mem_pushDigit (hlt _), List.mem_singleton]
  constructor
  · rintro ⟨_, ⟨_, ⟨_, ⟨_, rfl, a, ha, rfl⟩, b, hb, rfl⟩, c, hc, rfl⟩, d, hd, rfl⟩
    exact ⟨[a, b, c, d], rfl, rfl, hexValue_four.2 ⟨_, _, _, _, ha, hb, hc, hd, by omega⟩⟩
  · rintro ⟨ds, rfl, hlen, hvalue⟩
    obtain ⟨a, b, c, d, rfl⟩ : ∃ a b c d, ds = [a, b, c, d] := by
      rcases ds with _ | ⟨a, _ | ⟨b, _ | ⟨c, _ | ⟨d, _ | ⟨e, ds⟩⟩⟩⟩⟩ <;> simp at hlen
      exact ⟨a, b, c, d, rfl⟩
    obtain ⟨w, x, y, z, ha, hb, hc, hd, rfl⟩ := hexValue_four.1 hvalue
    have hw := hexDigit_lt ha
    have hx := hexDigit_lt hb
    have hy := hexDigit_lt hc
    have hz := hexDigit_lt hd
    refine ⟨_, ⟨_, ⟨_, ⟨_, rfl, a, ?_, rfl⟩, b, ?_, rfl⟩, c, ?_, rfl⟩, d, ?_, rfl⟩
    · rw [ha]
      congr 1
      omega
    · rw [hb]
      congr 1
      omega
    · rw [hc]
      congr 1
      omega
    · rw [hd]
      congr 1
      omega

theorem shortLetter_iff (c : Char) (b : Byte) : shortLetter c = some b ↔ shortEscape b = some c := by
  unfold shortLetter shortEscape
  constructor
  · intro h
    split_ifs at h <;> cases h <;> simp_all
  · intro h
    split_ifs at h <;> cases h <;> simp_all

/-- **The paths of a character are its spellings.** -/
theorem mem_scalarPaths {c : Char} {p : List Byte} : p ∈ scalarPaths c ↔ Spells p c := by
  have hvalid : c.toNat.isValidChar := c.valid
  unfold Nat.isValidChar at hvalid
  unfold scalarPaths
  rw [List.mem_append, List.mem_append]
  constructor
  · rintro ((h | h) | h)
    · split at h
      · rename_i hraw
        rw [List.mem_singleton.1 h]
        exact .raw c hraw.1 hraw.2.1 hraw.2.2
      · cases h
    · rw [Option.mem_toList, Option.map_eq_some_iff] at h
      obtain ⟨b, hb, rfl⟩ := h
      exact .short ((shortLetter_iff c b).1 hb)
    · split at h
      · obtain ⟨ds, rfl, hlen, hvalue⟩ := (mem_unicodeEscapePaths (by omega)).1 h
        exact .unicode hlen hvalue
      · obtain ⟨high, hhigh, h⟩ := List.mem_flatMap.1 h
        obtain ⟨low, hlow, rfl⟩ := List.mem_map.1 h
        obtain ⟨ds, rfl, hlen, hvalue⟩ := (mem_unicodeEscapePaths (by omega)).1 hhigh
        obtain ⟨es, rfl, hlen', hvalue'⟩ := (mem_unicodeEscapePaths (by omega)).1 hlow
        exact .pair hlen hlen' hvalue hvalue' (by omega) (by omega) (by omega)
  · intro h
    cases h with
    | raw c printable quote backslash =>
      rw [if_pos ⟨printable, quote, backslash⟩]
      exact .inl (.inl (List.mem_singleton_self _))
    | @short b c h =>
      refine .inl (.inr ?_)
      rw [(shortLetter_iff c b).2 h]
      exact List.mem_singleton_self _
    | @unicode ds c four value =>
      have hlt := hexValue_lt value
      rw [four] at hlt
      refine .inr ?_
      rw [if_pos (by omega)]
      exact (mem_unicodeEscapePaths (by omega)).2 ⟨ds, rfl, four, value⟩
    | @pair high low hi lo c high4 low4 highValue lowValue highRange lowRange code =>
      refine .inr ?_
      rw [if_neg (by omega)]
      refine List.mem_flatMap.2 ⟨unicodeEscape high, (mem_unicodeEscapePaths (by omega)).2 ⟨high, rfl, high4, ?_⟩,
        List.mem_map.2 ⟨unicodeEscape low, (mem_unicodeEscapePaths (by omega)).2 ⟨low, rfl, low4, ?_⟩, rfl⟩⟩
      · exact highValue.trans (congrArg some (by omega))
      · exact lowValue.trans (congrArg some (by omega))

/-- **No spelling is the start of another**, and none spells two characters: the decoder takes it to one. -/
theorem spells_free {u v : List Byte} {c c' : Char} (h : Spells u c) (h' : Spells (u ++ v) c') : v = [] ∧ c = c' := by
  have hall := JsonStringDecoder.feed_spells h' 0
  rw [JsonStringDecoder.feed_append, JsonStringDecoder.feed_spells h, Option.bind_some, Option.map_eq_some_iff] at hall
  obtain ⟨⟨cs, d⟩, hfeed, heq⟩ := hall
  simp only [Prod.mk.injEq, List.singleton_append, List.cons.injEq] at heq
  obtain ⟨⟨rfl, rfl⟩, rfl⟩ := heq
  refine ⟨?_, rfl⟩
  obtain ⟨done, rest, rfl, ⟨units, hunits, rfl⟩, hat, -⟩ := JsonStringDecoder.feed_split (.boundary 1) hfeed
  cases hunits
  exact (hat.boundary_eq rfl).1

theorem spells_ne_nil {c : Char} : ¬Spells [] c := by
  intro h
  have := JsonStringDecoder.feed_spells h 0
  cases this

theorem spells_not_quote {v : List Byte} {c : Char} : ¬Spells (0x22 :: v) c := by
  intro h
  have := JsonStringDecoder.feed_spells h 0
  cases this

/-! ### The words of the automaton -/

/-- The paths out of one node. -/
def NodeWord (accept i : Nat) (row : Bool × List (Char × Nat)) (s : Nat) (w : List Byte) (t : Nat) : Prop :=
  s = i + 1 ∧ (row.1 = true ∧ w = [0x22] ∧ t = accept ∨ ∃ e ∈ row.2, t = e.2 + 1 ∧ Spells w e.1)

/-- The paths of the automaton: the opening quote, and those of each node. -/
def PathWord (nodes : LabelTrie.Rows Char) (s : Nat) (w : List Byte) (t : Nat) : Prop :=
  s = 0 ∧ w = [0x22] ∧ t = 1 ∨ ∃ i row, nodes[i]? = some row ∧ NodeWord (nodes.length + 1) i row s w t

section Words

variable {nodes : LabelTrie.Rows Char}

/-- The edges of the trie stay in it, and no two of a node have one character. -/
structure Formed (nodes : LabelTrie.Rows Char) : Prop where
  inhabited : 0 < nodes.length
  targets : ∀ row ∈ nodes, ∀ e ∈ row.2, e.2 < nodes.length
  tidy : Explore.Tidy nodes

theorem pathWord_coded (h : Formed nodes) : Coded (nodes.length + 2) (PathWord nodes) where
  nonempty := by
    rintro s w t (⟨-, rfl, -⟩ | ⟨i, row, -, -, ⟨-, rfl, -⟩ | ⟨e, -, -, hw⟩⟩)
    · exact List.cons_ne_nil _ _
    · exact List.cons_ne_nil _ _
    · rintro rfl
      exact spells_ne_nil hw
  target := by
    have hpos := h.inhabited
    rintro s w t (⟨-, -, rfl⟩ | ⟨i, row, hrow, -, ⟨-, -, rfl⟩ | ⟨e, he, rfl, -⟩⟩)
    · omega
    · omega
    · have := h.targets row (List.mem_of_getElem? hrow) e he
      omega
  free := by
    rintro s w v t t' (⟨rfl, rfl, rfl⟩ | ⟨i, row, hrow, rfl, hword⟩) (⟨hs, hv, rfl⟩ | ⟨i', row', hrow', hs, hword'⟩)
    · exact ⟨(List.cons.inj hv).2, rfl⟩
    · cases hs
    · cases hs
    · cases hs
      cases hrow.symm.trans hrow'
      rcases hword with ⟨-, rfl, rfl⟩ | ⟨e, he, rfl, hw⟩ <;> rcases hword' with ⟨-, hv, rfl⟩ | ⟨e', he', rfl, hv⟩
      · exact ⟨(List.cons.inj hv).2, rfl⟩
      · exact absurd hv spells_not_quote
      · -- a spelling is no part of the closing quote
        cases w with
        | nil => exact absurd hw spells_ne_nil
        | cons b w =>
          rw [(List.cons.inj hv).1] at hw
          exact absurd hw spells_not_quote
      · obtain ⟨rfl, hc⟩ := spells_free hw hv
        have hsame := List.inj_on_of_nodup_map (h.tidy row (List.mem_of_getElem? hrow)) he he' hc
        exact ⟨rfl, congrArg (fun e : Char × Nat => e.2 + 1) hsame⟩

/-! ### Laying the paths -/

section Laying

variable {main : Nat} {code : Nat → List Byte → Nat → Prop}

theorem addPaths_extends (hcoded : Coded main code) {source target : Nat} {paths : List (List Byte)}
    (hs : source < main) (hpaths : ∀ p ∈ paths, code source p target) :
    Extends main code graphLimit (fun states => addPaths source target states paths)
      fun s w t => ∃ p ∈ paths, s = source ∧ w = p ∧ t = target :=
  Extends.foldlM fun p hp => Extends.path hcoded hs (hpaths p hp)

theorem checked_extends {n : Nat} {f : Nat → List ByteState → Except CompileError (List ByteState)}
    {new : Nat → List Byte → Nat → Prop} (h : Extends main code graphLimit (f n) new) :
    Extends main code graphLimit (fun states => checkedU32 graphLimit n >>= fun m => f m states) new := by
  unfold checkedU32
  split
  · exact h
  · intro laid rows origin _
    exact .inl rfl

theorem addNode_extends (hcoded : Coded main code) {accept i : Nat} {row : Bool × List (Char × Nat)} (hs : i + 1 < main)
    (hcode : ∀ w t, NodeWord accept i row (i + 1) w t → code (i + 1) w t) :
    Extends main code graphLimit (fun states => addNode accept states (row, i)) (NodeWord accept i row) := by
  have hclose : Extends main code graphLimit
      (fun states => if row.1 then addPath states (i + 1) accept [0x22] else .ok states)
      fun s w t => row.1 = true ∧ s = i + 1 ∧ w = [0x22] ∧ t = accept := by
    by_cases hend : row.1 = true
    · simp only [hend, if_true, true_and]
      exact Extends.path hcoded hs (hcode _ _ ⟨rfl, .inl ⟨hend, rfl, rfl⟩⟩)
    · simp only [if_neg hend]
      exact Extends.none.congr fun s w t => iff_of_false id fun h => hend h.1
  have hedges : Extends main code graphLimit (fun states => row.2.foldlM (fun states edge =>
      checkedU32 graphLimit (edge.2 + 1) >>= fun target => addScalarSpellings states (i + 1) target edge.1) states)
      fun s w t => ∃ e ∈ row.2, ∃ p ∈ scalarPaths e.1, s = i + 1 ∧ w = p ∧ t = e.2 + 1 := by
    refine Extends.foldlM fun e he => checked_extends (addPaths_extends hcoded hs fun p hp => ?_)
    exact hcode _ _ ⟨rfl, .inr ⟨e, he, rfl, mem_scalarPaths.1 hp⟩⟩
  refine (checked_extends (hclose.bind hedges)).congr fun s w t => ?_
  simp only [mem_scalarPaths]
  constructor
  · rintro (⟨hend, rfl, rfl, rfl⟩ | ⟨e, he, p, hp, rfl, rfl, rfl⟩)
    · exact ⟨rfl, .inl ⟨hend, rfl, rfl⟩⟩
    · exact ⟨rfl, .inr ⟨e, he, rfl, hp⟩⟩
  · rintro ⟨rfl, ⟨hend, rfl, rfl⟩ | ⟨e, he, rfl, hp⟩⟩
    · exact .inl ⟨hend, rfl, rfl, rfl⟩
    · exact .inr ⟨e, he, w, hp, rfl, rfl, rfl⟩

end Laying

theorem length_jsonStates : (jsonStates nodes).length = nodes.length + 2 := by
  simp [jsonStates]

theorem getElem?_jsonStates (q : Nat) : (jsonStates nodes)[q]? =
    if q < nodes.length + 1 then some (false, []) else if q = nodes.length + 1 then some (true, []) else none := by
  unfold jsonStates
  cases q with
  | zero => rfl
  | succ q =>
    rw [List.cons_append, List.getElem?_cons_succ]
    rcases Nat.lt_trichotomy q nodes.length with h | h | h
    · rw [List.getElem?_append_left (by simpa using h), List.getElem?_map, List.getElem?_eq_getElem h,
        if_pos (by omega)]
      rfl
    · rw [List.getElem?_append_right (by simp [h]), if_neg (by omega), if_pos (by omega)]
      simp [h]
    · rw [List.getElem?_eq_none (by simpa using h), if_neg (by omega), if_neg (by omega)]

theorem kids_jsonStates (q : Nat) : kids (jsonStates nodes) q = [] := by
  unfold kids
  rw [getElem?_jsonStates]
  split
  · rfl
  · split <;> rfl

theorem ends_jsonStates (q : Nat) : ends (jsonStates nodes) q = decide (q = nodes.length + 1) := by
  unfold ends
  rw [getElem?_jsonStates]
  split
  · rename_i h
    rw [decide_eq_false (by omega)]
    rfl
  · split
    · rename_i h
      rw [decide_eq_true h]
      rfl
    · rename_i h
      rw [decide_eq_false h]
      rfl

/-- The opening quote opens no state. -/
theorem open_path (nodes : LabelTrie.Rows Char) :
    addPath (jsonStates nodes) 0 1 [0x22] = .ok (PathMerge.push (jsonStates nodes) 0 (0x22, 1)) := rfl

/-- **All paths are laid**, where there is room. -/
theorem pathStates_laid (h : Formed nodes) : pathStates nodes = .error graphLimit ∨
    ∃ states origin, pathStates nodes = .ok states ∧
      Laid (nodes.length + 2) (PathWord nodes) (PathWord nodes) states origin ∧
      ∀ q, ends states q = decide (q = nodes.length + 1) := by
  have hcoded := pathWord_coded h
  have hstart : Laid (nodes.length + 2) (PathWord nodes) (fun _ _ _ => False) (jsonStates nodes) fun q => (q, []) := by
    rw [← length_jsonStates]
    refine Laid.start kids_jsonStates fun q hq => ?_
    rw [length_jsonStates] at hq
    rw [ends_jsonStates, decide_eq_false (by omega)]
  have hopen : Extends (nodes.length + 2) (PathWord nodes) graphLimit (fun states => addPath states 0 1 [0x22])
      fun s w t => s = 0 ∧ w = [0x22] ∧ t = 1 := Extends.path hcoded (by omega) (.inl ⟨rfl, rfl, rfl⟩)
  have hnodes : Extends (nodes.length + 2) (PathWord nodes) graphLimit
      (fun states => nodes.zipIdx.foldlM (addNode (nodes.length + 1)) states)
      fun s w t => ∃ node ∈ nodes.zipIdx, NodeWord (nodes.length + 1) node.2 node.1 s w t := by
    refine Extends.foldlM fun node hnode => ?_
    obtain ⟨row, i⟩ := node
    have hrow := List.mem_zipIdx_iff_getElem?.1 hnode
    have hi := (List.getElem?_eq_some_iff.1 hrow).1
    exact addNode_extends hcoded (by omega) fun w t hw => .inr ⟨i, row, hrow, hw⟩
  have hall : Extends (nodes.length + 2) (PathWord nodes) graphLimit
    (fun states => addPath states 0 1 [0x22] >>= fun states =>
      checkedU32 graphLimit (nodes.length + 1) >>= fun accept => nodes.zipIdx.foldlM (addNode accept) states)
        (PathWord nodes) := by
    refine (hopen.bind (checked_extends hnodes)).congr fun s w t => or_congr_right ?_
    constructor
    · rintro ⟨node, hnode, hw⟩
      exact ⟨node.2, node.1, List.mem_zipIdx_iff_getElem?.1 hnode, hw⟩
    · rintro ⟨i, row, hrow, hw⟩
      exact ⟨(row, i), List.mem_zipIdx_iff_getElem?.2 hrow, hw⟩
  have heq : pathStates nodes = addPath (jsonStates nodes) 0 1 [0x22] >>= fun states =>
      checkedU32 graphLimit (nodes.length + 1) >>= fun accept => nodes.zipIdx.foldlM (addNode accept) states := by
    unfold pathStates
    rw [open_path]
    show (checkedU32 graphLimit ((PathMerge.push (jsonStates nodes) 0 (0x22, 1)).length - 1) >>= _) = _
    rw [PathMerge.length_push, length_jsonStates]
    rfl
  rw [heq]
  rcases hall _ _ _ hstart with hfull | ⟨states, origin, hok, hlaid, hends⟩
  · exact .inl hfull
  · refine .inr ⟨states, origin, hok, hlaid.congr fun s w t => or_iff_right id, fun q => ?_⟩
    rw [hends, ends_jsonStates]

/-! ### What the automaton accepts -/

section Strings

variable {accept : Nat → Bool}

theorem spelling_nil {body : List Byte} (h : Spelling body []) : body = [] := by
  obtain ⟨units, hunits, rfl⟩ := h
  cases hunits
  rfl

theorem spelling_cons {body : List Byte} {c : Char} {cs : List Char} (h : Spelling body (c :: cs)) :
    ∃ u rest, body = u ++ rest ∧ Spells u c ∧ Spelling rest cs := by
  obtain ⟨units, hunits, rfl⟩ := h
  cases hunits with
  | cons hu hrest => exact ⟨_, _, List.flatten_cons, hu, _, hrest, rfl⟩

/-- Nothing is strung to the state behind the closing quote. -/
theorem strung_accept {w : List Byte} (h : Strung (PathWord nodes) accept (nodes.length + 1) w) : w = [] := by
  cases h with
  | nil => rfl
  | cons hw _ =>
    rcases hw with ⟨hs, -⟩ | ⟨i, row, hrow, hs, -⟩
    · omega
    · have := (List.getElem?_eq_some_iff.1 hrow).1
      omega

/-- **From a node the paths spell what the trie still can, and close.** -/
theorem strung_node (h₀ : Formed nodes) (hends : ∀ q, accept q = decide (q = nodes.length + 1)) {s : Nat}
    {w : List Byte} (h : Strung (PathWord nodes) accept s w) : ∀ i, s = i + 1 → i < nodes.length →
      ∃ text body j, w = body ++ [0x22] ∧ Forest.Path (kids nodes) i text j ∧ ends nodes j = true ∧
      Spelling body text := by
  induction h with
  | nil hacc =>
    rintro i rfl hi
    rw [hends, decide_eq_true_eq] at hacc
    omega
  | @cons s t w v hw hv ih =>
    rintro i rfl hi
    rcases hw with ⟨hs, -⟩ | ⟨i', row, hrow, hs, hword⟩
    · cases hs
    · cases hs
      rcases hword with ⟨hend, rfl, rfl⟩ | ⟨e, he, rfl, hspell⟩
      · rw [strung_accept hv]
        refine ⟨[], [], i, rfl, .nil i, ?_, Spelling.nil⟩
        rw [LabelTrie.ends, hrow]
        exact hend
      · have hedge : e ∈ kids nodes i := by
          rw [LabelTrie.kids_eq hrow]
          exact he
        have hlt := h₀.targets row (List.mem_of_getElem? hrow) e he
        obtain ⟨text, body, j, rfl, hpath, hend, hbody⟩ := ih e.2 rfl hlt
        exact ⟨e.1 :: text, w ++ body, j, (List.append_assoc _ _ _).symm, .cons hedge hpath, hend,
          (Spelling.single hspell).append hbody⟩

theorem node_strung (hends : ∀ q, accept q = decide (q = nodes.length + 1)) {i j : Nat} {text : List Char}
    (hpath : Forest.Path (kids nodes) i text j) (hend : ends nodes j = true) :
    ∀ {body : List Byte}, Spelling body text → Strung (PathWord nodes) accept (i + 1) (body ++ [0x22]) := by
  have hrow : ∀ {i : Nat} {e : Char × Nat}, e ∈ kids nodes i → ∃ row, nodes[i]? = some row ∧ e ∈ row.2 := by
    intro i e he
    cases h : nodes[i]? with
    | none =>
      rw [kids, h] at he
      cases he
    | some row =>
      rw [LabelTrie.kids_eq h] at he
      exact ⟨row, rfl, he⟩
  induction hpath with
  | nil i =>
    intro body hbody
    rw [spelling_nil hbody]
    cases h : nodes[i]? with
    | none =>
      rw [ends, h] at hend
      cases hend
    | some row =>
      rw [ends, h] at hend
      have hclose : PathWord nodes (i + 1) [0x22] (nodes.length + 1) := .inr ⟨i, row, h, rfl, .inl ⟨hend, rfl, rfl⟩⟩
      show Strung (PathWord nodes) accept (i + 1) ([0x22] ++ [])
      exact .cons hclose (.nil (by rw [hends, decide_eq_true_eq]))
  | @cons i k j c text hk hpath ih =>
    intro body hbody
    obtain ⟨u, rest, rfl, hu, hrest⟩ := spelling_cons hbody
    obtain ⟨row, hi, he⟩ := hrow hk
    rw [List.append_assoc]
    exact .cons (.inr ⟨i, row, hi, rfl, .inr ⟨(c, k), he, rfl, hu⟩⟩) (ih hend hrest)

/-- **From the start the paths are the quoted spellings of the texts of the trie.** -/
theorem strung_start (h₀ : Formed nodes) (hends : ∀ q, accept q = decide (q = nodes.length + 1)) (w : List Byte) :
    Strung (PathWord nodes) accept 0 w ↔
      ∃ body text j, w = 0x22 :: (body ++ [0x22]) ∧ Forest.Path (kids nodes) 0 text j ∧ ends nodes j = true ∧
      Spelling body text := by
  constructor
  · intro h
    cases h with
    | nil hacc =>
      rw [hends, decide_eq_true_eq] at hacc
      omega
    | cons hw hv =>
      rcases hw with ⟨-, rfl, rfl⟩ | ⟨i, row, -, hs, -⟩
      · obtain ⟨text, body, j, rfl, hpath, hend, hbody⟩ := strung_node h₀ hends hv 0 rfl h₀.inhabited
        exact ⟨body, text, j, rfl, hpath, hend, hbody⟩
      · cases hs
  · rintro ⟨body, text, j, rfl, hpath, hend, hbody⟩
    have hopen : PathWord nodes 0 [0x22] 1 := .inl ⟨rfl, rfl, rfl⟩
    exact .cons hopen (node_strung hends hpath hend hbody)

end Strings

end Words

/-! ### The automaton of some strings -/

theorem decodedTrie_formed {values : List Text} {nodes : LabelTrie.Rows Char} (h : decodedTrie values = .ok nodes) :
    Formed nodes := by
  obtain ⟨lbl, hspells⟩ := LabelTrie.build_spells h
  refine ⟨hspells.labelled.inhabited, fun row hrow e he => ?_, hspells.tidy⟩
  obtain ⟨i, hi⟩ := List.mem_iff_getElem?.1 hrow
  have hlt := (List.getElem?_eq_some_iff.1 hi).1
  rw [← LabelTrie.kids_eq hi] at he
  exact (hspells.labelled.edge i hlt e he).2.2

/-- A string set fails for want of room only. -/
theorem stringSet_error {values : List Text} {err : CompileError} (h : stringSet values = .error err) :
    err = graphLimit := by
  unfold stringSet at h
  rcases bind_error h with h | ⟨nodes, hnodes, h⟩
  · exact LabelTrie.build_error h
  have hformed := decodedTrie_formed hnodes
  unfold intoJsonGraph at h
  rcases pathStates_laid hformed with hfull | ⟨states, origin, hok, hlaid, -⟩
  · rw [hfull] at h
    exact (Except.error.inj h).symm
  · rw [hok] at h
    have hpos : 0 < states.length := Nat.lt_of_lt_of_le (Nat.succ_pos _) hlaid.mains
    refine AutomatonGraph.fromByteStates_error h hpos (fun row hrow e he => ?_) (PathMerge.tidy_iff.2 hlaid.tidy)
    obtain ⟨q, hq⟩ := List.mem_iff_getElem?.1 hrow
    have hlt := (List.getElem?_eq_some_iff.1 hq).1
    rw [← LabelTrie.kids_eq hq] at he
    rcases (hlaid.edges q hlt e.1 e.2).1 he with ⟨ht, -⟩ | ⟨-, ht, -⟩
    · exact Nat.lt_of_lt_of_le ht hlaid.mains
    · exact ht

/-- What a string set accepts, by the grammar. -/
theorem stringSet_accepts {values : List Text} {g : AutomatonGraph} (h : stringSet values = .ok g) (w : List Byte) :
    g.accepts w = true ↔ ∃ body text, w = 0x22 :: (body ++ [0x22]) ∧ Spelling body text ∧ text ∈ values := by
  unfold stringSet at h
  obtain ⟨nodes, hnodes, h⟩ := bind_ok h
  have hformed := decodedTrie_formed hnodes
  unfold intoJsonGraph at h
  obtain ⟨states, hok, h⟩ := bind_ok h
  rcases pathStates_laid hformed with hfull | ⟨states', origin, hok', hlaid, hends⟩
  · rw [hfull] at hok
    cases hok
  · cases hok.symm.trans hok'
    rw [AutomatonGraph.fromByteStates_accepts h, hlaid.accepts (pathWord_coded hformed) (by omega),
      strung_start hformed hends]
    have htexts : ∀ text, text ∈ values ↔ ∃ j, Forest.Path (kids nodes) 0 text j ∧ ends nodes j = true := fun text =>
      (LabelTrie.build_accepts hnodes text).symm.trans (LabelTrie.accepts_iff hformed.tidy)
    simp only [htexts]
    constructor
    · rintro ⟨body, text, j, rfl, hpath, hend, hbody⟩
      exact ⟨body, text, rfl, hbody, j, hpath, hend⟩
    · rintro ⟨body, text, rfl, hbody, j, hpath, hend⟩
      exact ⟨body, text, j, rfl, hpath, hend, hbody⟩

/-- **The string set and the decoder agree.**  The set never fails for a clash of its paths, and it accepts the texts in
quotes whose body the decoder takes, to its end, to one of the strings. -/
theorem string_set_decodes (values : List Text) : stringSet values ≠ .error notDeterministic ∧
    ∀ g, stringSet values = .ok g → ∀ w, g.accepts w = true ↔ ∃ body cs d, w = 0x22 :: (body ++ [0x22]) ∧
      JsonStringDecoder.new.feed body = some (cs, d) ∧ d.atBoundary = true ∧ cs ∈ values := by
  constructor
  · intro h
    have hlimit := stringSet_error h
    cases hlimit
  · intro g hg w
    rw [stringSet_accepts hg]
    constructor
    · rintro ⟨body, text, rfl, hbody, htext⟩
      obtain ⟨d, hfeed, hd⟩ := (JsonStringDecoder.feed_iff_spelling body text).2 hbody
      exact ⟨body, text, d, rfl, hfeed, hd, htext⟩
    · rintro ⟨body, cs, d, rfl, hfeed, hd, hcs⟩
      exact ⟨body, cs, rfl, (JsonStringDecoder.feed_iff_spelling body cs).1 ⟨d, hfeed, hd⟩, hcs⟩

/-- The text `"\u0061"` is one of the letter it names. -/
theorem string_set_decodes_letter : ∃ g, stringSet [['a']] = .ok g ∧
    g.accepts [0x22, 0x5c, 0x75, 0x30, 0x30, 0x36, 0x31, 0x22] = true := by
  have hsome : (stringSet [['a']]).toOption.isSome = true := by decide +kernel
  obtain ⟨g, hg⟩ := exists_of_toOption hsome
  refine ⟨g, hg, ((string_set_decodes [['a']]).2 g hg _).2 ?_⟩
  exact ⟨[0x5c, 0x75, 0x30, 0x30, 0x36, 0x31], ['a'], JsonStringDecoder.between 1, rfl, rfl, rfl,
    List.mem_singleton_self _⟩

end StringSet
end MaskForge
