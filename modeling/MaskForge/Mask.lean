import MaskForge.Primitives
/-!
# Mask — allowed-token masks as packed 32-bit words

`Bitmask` is the source's `Vec<u32>` with the token-id space it covers.  `set` refuses an id outside that space and
`get` reads it as clear, so every fact about masks is about single bits: `get_set` and `get_zeros`.
-/
namespace MaskForge

/-- One packed word. -/
abbrev Word := BitVec 32

def wordBits : Nat := 32

/-- `usize::div_ceil`. -/
def divCeil (n d : Nat) : Nat := (n + d - 1) / d

structure Bitmask where
  words : List Word
  vocabSize : Nat
  deriving DecidableEq

namespace Bitmask

def zeros (vocabSize : Nat) : Bitmask := ⟨List.replicate (divCeil vocabSize wordBits) 0, vocabSize⟩

def outOfRange : CompileError :=
  ⟨.artifactOutOfBounds, .artifactValidate, "token id is outside the mask vocab size"⟩

/-- Sets one bit of a row of words; a word index past the row leaves it as it is. -/
def setBit (words : List Word) (idx : Nat) : List Word :=
  words.modify (idx / wordBits) (fun w => w ||| (1#32 <<< (idx % wordBits)))

/-- Reads one bit of a row of words. -/
def testBit (words : List Word) (idx : Nat) : Bool :=
  match words[idx / wordBits]? with
  | none => false
  | some w => w &&& (1#32 <<< (idx % wordBits)) != 0#32

def set (m : Bitmask) (id : Nat) : Except CompileError Bitmask :=
  if m.vocabSize ≤ id then .error outOfRange else .ok { m with words := setBit m.words id }

def get (m : Bitmask) (id : Nat) : Bool :=
  if m.vocabSize ≤ id then false else testBit m.words id

/-- Builds a mask from packed words, clearing unused high bits. -/
def fromWords (words : List Word) (vocabSize : Nat) : Bitmask :=
  let need := divCeil vocabSize wordBits
  let buf := words.take need ++ List.replicate (need - words.length) 0
  let remainder := vocabSize % wordBits
  if remainder = 0 then ⟨buf, vocabSize⟩
  else ⟨buf.modify (need - 1) (fun w => w &&& ((1#32 <<< remainder) - 1)), vocabSize⟩

/-- The set ids in ascending order: `allowed_ids` scans each word from its lowest set bit. -/
def setIds (m : Bitmask) : List Nat :=
  m.words.zipIdx.flatMap (fun (w, i) =>
    ((List.range wordBits).filter (fun b => w.getLsbD b)).map (fun b => i * wordBits + b))

theorem and_one_shiftLeft_ne_zero (w : Word) (i : Nat) (hi : i < 32) :
    (w &&& (1#32 <<< i) != 0#32) = w.getLsbD i := by
  rw [Bool.eq_iff_iff, bne_iff_ne]
  constructor
  · intro h
    by_contra hc
    apply h
    apply BitVec.eq_of_getLsbD_eq
    intro j hj
    simp only [BitVec.getLsbD_and, BitVec.getLsbD_shiftLeft, BitVec.getLsbD_one, BitVec.getLsbD_zero]
    by_cases hji : j = i
    · subst hji
      simp [hc]
    · by_cases hlt : j < i
      · simp [hlt]
      · have : ¬ j - i = 0 := by omega
        simp [this]
  · intro h hc
    have hbit := congrArg (fun v : Word => v.getLsbD i) hc
    simp only [BitVec.getLsbD_and, h, BitVec.getLsbD_shiftLeft, BitVec.getLsbD_zero] at hbit
    simp [hi] at hbit

theorem testBit_eq (words : List Word) (idx : Nat) :
    testBit words idx = match words[idx / wordBits]? with
      | none => false
      | some w => w.getLsbD (idx % wordBits) := by
  unfold testBit
  cases words[idx / wordBits]? with
  | none => rfl
  | some w => exact and_one_shiftLeft_ne_zero w _ (Nat.mod_lt _ (by decide))

theorem getLsbD_or_one (w : Word) (i j : Nat) (hi : i < 32) :
    (w ||| (1#32 <<< i)).getLsbD j = (w.getLsbD j || decide (j = i)) := by
  rw [BitVec.getLsbD_or, BitVec.getLsbD_shiftLeft, BitVec.getLsbD_one]
  congr 1
  by_cases hji : j = i
  · subst hji
    simp [hi]
  · by_cases hlt : j < i
    · simp [hlt, hji]
    · have : ¬ j - i = 0 := by omega
      simp [this, hji]

/-- **One bit of a row after setting a bit the row has.** -/
theorem testBit_setBit (words : List Word) (i j : Nat) (hi : i / wordBits < words.length) :
    testBit (setBit words i) j = (testBit words j || decide (j = i)) := by
  rw [testBit_eq, testBit_eq, setBit, List.getElem?_modify]
  have hmod : i % wordBits < 32 := Nat.mod_lt _ (by decide)
  by_cases hd : i / wordBits = j / wordBits
  · rw [← hd, List.getElem?_eq_getElem hi]
    simp only [if_true, Option.map_eq_map, Option.map_some]
    rw [getLsbD_or_one _ _ _ hmod]
    congr 2
    apply propext
    unfold wordBits at hd ⊢
    omega
  · have hne : ¬ j = i := fun h => hd (by rw [h])
    simp only [hd, if_false, Option.map_eq_map, Option.map_id', hne, decide_false, Bool.or_false]

theorem divCeil_spec (n i : Nat) (h : i < n) : i / wordBits < divCeil n wordBits := by
  unfold divCeil wordBits
  omega

theorem testBit_replicate (n j : Nat) : testBit (List.replicate n 0) j = false := by
  rw [testBit_eq, List.getElem?_replicate]
  split <;> rename_i h
  · rfl
  · split at h
    · cases h
      simp
    · cases h

@[simp] theorem get_zeros (n j : Nat) : (zeros n).get j = false := by
  unfold get zeros
  split
  · rfl
  · exact testBit_replicate _ _

/-- A mask as the constructors leave it: the words of its size, and no bit past it. -/
structure Tidy (m : Bitmask) : Prop where
  len : m.words.length = divCeil m.vocabSize wordBits
  high : ∀ j, m.vocabSize ≤ j → testBit m.words j = false

theorem tidy_zeros (n : Nat) : (zeros n).Tidy := ⟨by simp [zeros], fun _ _ => testBit_replicate _ _⟩

theorem set_ok {m m' : Bitmask} {id : Nat} (h : m.set id = .ok m') :
    id < m.vocabSize ∧ m' = { m with words := setBit m.words id } := by
  unfold set at h
  split at h
  · cases h
  · rename_i hid
    cases h
    exact ⟨by omega, rfl⟩

theorem Tidy.get_eq {m : Bitmask} (h : m.Tidy) (j : Nat) : m.get j = testBit m.words j := by
  unfold get
  split
  · rename_i hj
    exact (h.high j hj).symm
  · rfl

/-- **Setting a bit sets that bit and no other**, and keeps the mask tidy. -/
theorem get_set {m m' : Bitmask} {id : Nat} (hm : m.Tidy) (h : m.set id = .ok m') :
    m'.Tidy ∧ m'.vocabSize = m.vocabSize ∧ ∀ j, m'.get j = (m.get j || decide (j = id)) := by
  obtain ⟨hid, rfl⟩ := set_ok h
  have hrow : id / wordBits < m.words.length := by rw [hm.len]; exact divCeil_spec _ _ hid
  have htidy : Tidy { m with words := setBit m.words id } := by
    refine ⟨by simpa [setBit] using hm.len, fun j hj => ?_⟩
    have hj : m.vocabSize ≤ j := hj
    have : ¬ j = id := by omega
    rw [testBit_setBit _ _ _ hrow, hm.high j hj]
    simp [this]
  refine ⟨htidy, rfl, fun j => ?_⟩
  rw [htidy.get_eq, hm.get_eq]
  exact testBit_setBit _ _ _ hrow

theorem words_ext {a b : List Word} (hlen : a.length = b.length) (h : ∀ j, testBit a j = testBit b j) : a = b := by
  apply List.ext_getElem hlen
  intro i ha hb
  apply BitVec.eq_of_getLsbD_eq
  intro k hk
  have hbit := h (i * wordBits + k)
  have h1 : (i * wordBits + k) / wordBits = i := by unfold wordBits; omega
  have h2 : (i * wordBits + k) % wordBits = k := by unfold wordBits; omega
  rw [testBit_eq, testBit_eq, h1, h2, List.getElem?_eq_getElem ha, List.getElem?_eq_getElem hb] at hbit
  exact hbit

/-- **Tidy masks of one size are told apart by their bits.** -/
theorem Tidy.ext {m m' : Bitmask} (h : m.Tidy) (h' : m'.Tidy) (hsize : m.vocabSize = m'.vocabSize)
    (hget : ∀ j, m.get j = m'.get j) : m = m' := by
  have hw : m.words = m'.words := by
    apply words_ext
    · rw [h.len, h'.len, hsize]
    · intro j
      rw [← h.get_eq, ← h'.get_eq, hget]
  cases m
  cases m'
  simp only at hw hsize
  rw [hw, hsize]

/-- A row with no bit past the mask's size is its own mask: there is nothing to clear. -/
theorem fromWords_eq {words : List Word} {n : Nat} (h : Tidy ⟨words, n⟩) : fromWords words n = ⟨words, n⟩ := by
  have hlen : words.length = divCeil n wordBits := h.len
  have hbuf : words.take (divCeil n wordBits) ++ List.replicate (divCeil n wordBits - words.length) 0 = words := by
    rw [← hlen]
    simp
  unfold fromWords
  simp only [hbuf]
  split
  · rfl
  · rename_i hrem
    congr 1
    apply List.ext_getElem?
    intro i
    rw [List.getElem?_modify]
    by_cases hi : divCeil n wordBits - 1 = i
    · subst hi
      cases hw : words[divCeil n wordBits - 1]? with
      | none => rfl
      | some w =>
        simp only [if_true, Option.map_eq_map, Option.map_some, Option.some.injEq]
        apply BitVec.eq_of_getLsbD_eq
        intro k hk
        have hr32 : n % wordBits < 32 := Nat.mod_lt _ (by decide)
        have hpow : (1#32 <<< (n % wordBits)) - 1 = BitVec.ofNat 32 (2 ^ (n % wordBits) - 1) := by
          apply BitVec.eq_of_toNat_eq
          have hlt : 2 ^ (n % wordBits) < 2 ^ 32 := Nat.pow_lt_pow_right (by decide) hr32
          have hpos : 0 < 2 ^ (n % wordBits) := Nat.two_pow_pos _
          have hone : (1 : Word).toNat = 1 := rfl
          rw [BitVec.toNat_sub, BitVec.toNat_shiftLeft, BitVec.toNat_ofNat, Nat.shiftLeft_eq, BitVec.toNat_ofNat,
            hone, Nat.one_mod_eq_one.2 (by decide), Nat.one_mul, Nat.mod_eq_of_lt hlt]
          omega
        rw [BitVec.getLsbD_and, hpow, BitVec.getLsbD_ofNat, Nat.testBit_two_pow_sub_one]
        by_cases hkr : k < n % wordBits
        · simp [hkr, hk]
        · -- a cleared bit is past the mask's size
          have hpast : n ≤ (divCeil n wordBits - 1) * wordBits + k := by
            unfold divCeil wordBits at *
            omega
          have hbit := h.high _ hpast
          have h1 : ((divCeil n wordBits - 1) * wordBits + k) / wordBits = divCeil n wordBits - 1 := by
            unfold wordBits at *
            omega
          have h2 : ((divCeil n wordBits - 1) * wordBits + k) % wordBits = k := by
            unfold wordBits at *
            omega
          rw [testBit_eq, h1, h2] at hbit
          simp only [hw] at hbit
          simp [hbit]
    · simp only [hi, if_false, Option.map_eq_map, Option.map_id']

/-- **The id list of a mask is its set bits**, below its size. -/
theorem mem_setIds (m : Bitmask) (id : Nat) : id ∈ m.setIds ↔ testBit m.words id = true := by
  unfold setIds
  rw [testBit_eq]
  simp only [List.mem_flatMap, List.mem_map, List.mem_filter, List.mem_range, Prod.exists,
    List.mem_zipIdx_iff_getElem?]
  constructor
  · rintro ⟨w, i, hw, b, ⟨hb, hbit⟩, rfl⟩
    have h1 : (i * wordBits + b) / wordBits = i := by unfold wordBits at *; omega
    have h2 : (i * wordBits + b) % wordBits = b := by unfold wordBits at *; omega
    rw [h1, hw, h2]
    exact hbit
  · intro h
    cases hw : m.words[id / wordBits]? with
    | none => rw [hw] at h; cases h
    | some w =>
      rw [hw] at h
      exact ⟨w, id / wordBits, hw, id % wordBits, ⟨Nat.mod_lt _ (by decide), h⟩, by unfold wordBits; omega⟩

end Bitmask
end MaskForge
