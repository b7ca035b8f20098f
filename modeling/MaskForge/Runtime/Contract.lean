import MaskForge.Runtime.Artifact
/-!
# Contract — masks and advances agree, in every bind mode

Whatever produces it, a mask's bits are the tokens whose bytes the engine survives (`Survives`): the naive walk by
definition, the trie modes by `walkLiveSubtree_ok`.  The id-to-record index then turns that into the words of the
vocabulary, which are the words `advance` uses.
-/
namespace MaskForge

open CountingSort (slice start)

/-- Two token maps list the same ids under the same bytes, in whatever order. -/
def SameTokens (a b : List TokenRecord) : Prop :=
  ∀ bytes tok, (∃ r ∈ a, r.1 = bytes ∧ tok ∈ r.2) ↔ ∃ r ∈ b, r.1 = bytes ∧ tok ∈ r.2

/-- The tries built from a vocabulary and an engine; the class builder reads the token map the records came from. -/
inductive BuiltFrom (d : Digests) {eos : Nat} (p : PreparedVocabulary eos) (e : RefEngine) : VocabTrie → Prop where
  | byte {t : VocabTrie} : VocabTrie.buildByteFromPrepared p (d.vocab p.records eos) = .ok t → BuiltFrom d p e t
  | classes {t : VocabTrie} (tokens : List TokenRecord) : SameTokens tokens p.records →
    VocabTrie.buildClass d (d.vocab p.records eos) e tokens = .ok t → BuiltFrom d p e t

theorem VocabTrie.Spells.sameTokens {t : VocabTrie} {key : Byte → Nat} {a b : List TokenRecord} {lbl : Nat → List Nat}
    (h : t.Spells key a lbl) (hab : SameTokens a b) : t.Spells key b lbl := by
  refine ⟨h.readable, h.labelled, h.few, ?_, ?_⟩
  · intro i hi tok htok
    obtain ⟨r, hr, h1, h2⟩ := h.sound i hi tok htok
    obtain ⟨r', hr', h1', h2'⟩ := (hab r.1 tok).1 ⟨r, hr, rfl, h1⟩
    exact ⟨r', hr', h2', by rw [h1']; exact h2⟩
  · intro r hr tok htok
    obtain ⟨r', hr', h1', h2'⟩ := (hab r.1 tok).2 ⟨r, hr, rfl, htok⟩
    obtain ⟨i, hp, hl⟩ := h.complete r' hr' tok h2'
    exact ⟨i, by rw [← h1']; exact hp, hl⟩

/-- **A trie built from a vocabulary spells it**, in the engine's own classes. -/
theorem BuiltFrom.spells {d : Digests} {eos : Nat} {p : PreparedVocabulary eos} {e : RefEngine} {t : VocabTrie}
    (h : BuiltFrom d p e t) : ∃ key lbl, t.Spells key p.records lbl ∧ KeysFit t e key := by
  cases h with
  | byte h =>
    unfold VocabTrie.buildByteFromPrepared buildByteLimited at h
    split at h
    · cases h
    obtain ⟨-, -, h⟩ := bind_ok h
    obtain ⟨hkind, lbl, hs⟩ := buildByteCsr_spells h
    exact ⟨_, lbl, hs, keysFit_byte e hkind⟩
  | classes tokens hsame h =>
    unfold VocabTrie.buildClass buildClassLimited at h
    split at h
    · cases h
    obtain ⟨hkind, -, lbl, hs⟩ := buildFromRefs_spells h
    exact ⟨_, lbl, hs.sameTokens hsame, keysFit_classes e hkind⟩

/-- `tok` is ordinary and the engine survives its bytes from `s`. -/
def Allowed {eos : Nat} (v : CanonicalVocabulary eos) (e : RefEngine) (s tok : Nat) : Prop :=
  v.Ordinary tok ∧ ∃ bytes, v.tokenBytes tok = some bytes ∧ (e.consumeToken s bytes).isSome

theorem allowed_iff_survives {eos : Nat} {d : Digests} {p : PreparedVocabulary eos} {v : CanonicalVocabulary eos}
    (hv : v.Bound d p) (e : RefEngine) (s tok : Nat) : Allowed v e s tok ↔ Survives e p.records s tok := by
  constructor
  · rintro ⟨-, bytes, hb, hc⟩
    obtain ⟨r, hr, rfl, hid⟩ := (CanonicalVocabulary.tokenBytes_iff hv tok bytes).1 hb
    exact ⟨r, hr, hid, hc⟩
  · rintro ⟨r, hr, hid, hc⟩
    refine ⟨⟨r, by rw [hv.prepared]; exact hr, hid⟩, r.1, ?_, hc⟩
    exact (CanonicalVocabulary.tokenBytes_iff hv tok r.1).2 ⟨r, hr, rfl, hid⟩

/-- The mask of `s`, as a whole. -/
structure MaskOf (e : RefEngine) (records : List TokenRecord) (n s : Nat) (m : Bitmask) : Prop where
  tidy : m.Tidy
  size : m.vocabSize = n
  bits : ∀ j, m.get j = true ↔ Survives e records s j

theorem MaskOf.eq {e : RefEngine} {records : List TokenRecord} {n s : Nat} {m m' : Bitmask}
    (h : MaskOf e records n s m) (h' : MaskOf e records n s m') : m = m' := by
  refine h.tidy.ext h'.tidy (h.size.trans h'.size.symm) fun j => ?_
  rw [Bool.eq_iff_iff, h.bits, h'.bits]

theorem not_survives_out_of_range {e : RefEngine} {records : List TokenRecord} {s : Nat} (h : e.stateCount ≤ s)
    (hne : ∀ r ∈ records, r.1 ≠ []) (tok : Nat) : ¬ Survives e records s tok := by
  rintro ⟨r, hr, -, hc⟩
  cases hb : r.1 with
  | nil => exact hne r hr hb
  | cons b bs =>
    rw [hb] at hc
    unfold RefEngine.consumeToken at hc
    rw [e.step_out_of_range _ h] at hc
    simp at hc

theorem maskOf_zeros {e : RefEngine} {records : List TokenRecord} {n s : Nat} (h : e.stateCount ≤ s)
    (hne : ∀ r ∈ records, r.1 ≠ []) : MaskOf e records n s (Bitmask.zeros n) :=
  ⟨Bitmask.tidy_zeros n, rfl, fun j => by simp [not_survives_out_of_range h hne j]⟩

/-! ## Rows of the packed matrix -/

theorem start_of_width {α : Type} {w : Nat} : ∀ (rows : List (List α)), (∀ row ∈ rows, row.length = w) →
    ∀ i, i ≤ rows.length → start rows i = i * w
  | [], _, i, hi => by
    obtain rfl : i = 0 := by simpa using hi
    simp [start]
  | r :: rows, h, 0, _ => by simp [start]
  | r :: rows, h, i + 1, hi => by
    have ih := start_of_width rows (fun row hrow => h row (List.mem_cons_of_mem _ hrow)) i (by simpa using hi)
    have hr := h r List.mem_cons_self
    unfold start at ih ⊢
    rw [List.take_succ_cons, List.map_cons, List.sum_cons, ih, hr, Nat.add_mul, Nat.one_mul, Nat.add_comm]

/-- A packed table read back by rows: `some` of the state's row, or a state past the matrix. -/
theorem packed_row {rows : List (List Word)} {w s : Nat} (hw : ∀ row ∈ rows, row.length = w) {row : List Word}
    (h : PackedMaskTable.row ⟨w, rows.flatten⟩ s = some row) :
    rows[s]? = some row ∨ (rows.length ≤ s ∧ row = []) := by
  unfold PackedMaskTable.row at h
  simp only at h
  split at h
  case isFalse => cases h
  rename_i hle
  cases h
  rcases Nat.lt_or_ge s rows.length with hs | hs
  · left
    have hget : rows[s]? = some rows[s] := List.getElem?_eq_getElem hs
    have hslice := CountingSort.slice_flatten rows s _ hget
    rw [start_of_width rows hw s (by omega), start_of_width rows hw (s + 1) (by omega), Nat.add_mul, Nat.one_mul]
      at hslice
    rw [hget, hslice]
  · right
    refine ⟨hs, ?_⟩
    have hlen : rows.flatten.length = rows.length * w := by
      rw [← CountingSort.start_length, start_of_width rows hw _ (Nat.le_refl _)]
    have hw0 : w = 0 := by
      rw [hlen] at hle
      have : rows.length * w ≤ s * w := Nat.mul_le_mul_right w hs
      omega
    subst hw0
    simp [slice]

theorem packed_row_none {rows : List (List Word)} {w s : Nat} (hw : ∀ row ∈ rows, row.length = w)
    (h : PackedMaskTable.row ⟨w, rows.flatten⟩ s = none) : rows.length ≤ s := by
  unfold PackedMaskTable.row at h
  simp only at h
  split at h
  · cases h
  rename_i hle
  by_contra hs
  apply hle
  have hlen : rows.flatten.length = rows.length * w := by
    rw [← CountingSort.start_length, start_of_width rows hw _ (Nat.le_refl _)]
  have : (s + 1) * w ≤ rows.length * w := Nat.mul_le_mul_right w (by omega)
  rw [hlen]
  rw [Nat.add_mul, Nat.one_mul] at this
  exact this

/-! ## What a bind leaves -/

namespace CompiledArtifact

variable {eos : Nat}

theorem newFull_ok {env : BindEnv} {e : RefEngine} {v : CanonicalVocabulary eos} {mode : BindMode}
    {index : Option CompiledIndex} {lazyTrie : Option VocabTrie} {packed : Option PackedMaskTable}
    {a : CompiledArtifact eos} {cache : MaskRows} (h : newFull env e v mode index lazyTrie packed = .ok (a, cache)) :
    a = ⟨e, v, e.isDead e.start, mode, index, lazyTrie, packed⟩ ∧
      ∀ rows, cache = .lazy rows → ∀ s : Nat, (rows.rows[s]?).join = none := by
  unfold newFull at h
  obtain ⟨cache', hcache, h⟩ := bind_ok h
  obtain ⟨-, -, h⟩ := bind_ok h
  cases h
  refine ⟨rfl, ?_⟩
  rintro rows rfl s
  split at hcache
  · cases hcache
  · obtain ⟨rows', hnew, hcache⟩ := bind_ok hcache
    cases hcache
    unfold LazyRows.tryNew at hnew
    split at hnew
    · cases hnew
    · cases hnew
      rw [List.getElem?_replicate]
      split <;> rfl

/-- What each mode's bind leaves for the queries to read. -/
inductive Serves (e : RefEngine) (records : List TokenRecord) (n : Nat) (a : CompiledArtifact eos) : Prop where
  | naive : a.bindMode = .naive → a.packed = none → Serves e records n a
  | index (index : CompiledIndex) : (a.bindMode = .trieJointByte ∨ a.bindMode = .trieJointClass) → a.packed = none →
    a.index = some index → index.delta.length = e.stateCount →
    (∀ (s : Nat) row, index.delta[s]? = some row → ∀ tok q', (tok, q') ∈ row ↔
      ∃ r ∈ records, tok ∈ r.2 ∧ e.consumeToken s r.1 = some q') → Serves e records n a
  | lazy (t : VocabTrie) (key : Byte → Nat) (lbl : Nat → List Nat) : a.bindMode = .trieJointByteLazy → a.packed = none →
    a.lazyTrie = some t → t.Spells key records lbl → KeysFit t e key → Serves e records n a
  | packed (rows : List (List Word)) : a.bindMode = .trieJointBytePacked →
    a.packed = some ⟨divCeil n wordBits, rows.flatten⟩ → rows.length = e.stateCount →
    (∀ row ∈ rows, row.length = divCeil n wordBits) →
    (∀ (s : Nat) row, rows[s]? = some row → ∀ j, (Bitmask.testBit row j = true ↔ Survives e records s j) ∧
      (Survives e records s j → j < n)) → Serves e records n a

theorem newTriePrevalidated_serves {d : Digests} {p : PreparedVocabulary eos} {env : BindEnv} {e : RefEngine}
    {v : CanonicalVocabulary eos} {mode : BindMode} {t : VocabTrie} {a : CompiledArtifact eos} {cache : MaskRows}
    (ht : BuiltFrom d p e t) (h : newTriePrevalidated d env e v mode t = .ok (a, cache)) :
    ∃ index packed, a = ⟨e, v, e.isDead e.start, mode, index, none, packed⟩ ∧
      (∀ rows, cache = .lazy rows → ∀ s : Nat, (rows.rows[s]?).join = none) ∧
      Serves e p.records v.maskVocabSize a := by
  obtain ⟨key, lbl, hspells, hfit⟩ := ht.spells
  unfold newTriePrevalidated at h
  split at h
  · cases h
  obtain ⟨index, hindex, h⟩ := bind_ok h
  obtain ⟨rfl, hcache⟩ := newFull_ok h
  refine ⟨_, _, rfl, hcache, ?_⟩
  unfold buildDelta at hindex
  split at hindex
  · cases hindex
  rename_i hmode
  split at hindex
  · cases hindex
  split at hindex
  · cases hindex
  obtain ⟨rows, hrows, hindex⟩ := bind_ok hindex
  cases hindex
  obtain ⟨hlen, hmem⟩ := deltaRows_ok hspells hfit p.nonEmptyTokens _ _ _ _ StepMemo.bounded_new hrows
  rw [List.length_range] at hlen
  refine .index ⟨rows⟩ ?_ rfl rfl hlen ?_
  · rcases not_not.1 hmode with ⟨hm, -⟩ | ⟨hm, -⟩
    · exact Or.inl hm
    · exact Or.inr hm
  · intro s row hrow
    have hs : s < e.stateCount := by
      have := (List.getElem?_eq_some_iff.1 hrow).1
      simp only at this
      omega
    exact hmem s s row (by rw [List.getElem?_range hs]) hrow

/-- **A bind in any mode serves the engine's survivors.** -/
theorem bind_serves {d : Digests} {p : PreparedVocabulary eos} {env : BindEnv} {e : RefEngine}
    {v : CanonicalVocabulary eos} {mode : BindMode} {t : VocabTrie} {a : CompiledArtifact eos} {cache : MaskRows}
    (ht : BuiltFrom d p e t) (h : CompiledArtifact.bind d env e v mode t = .ok (a, cache)) :
    a.engine = e ∧ a.vocab = v ∧ (∀ rows, cache = .lazy rows → ∀ s : Nat, (rows.rows[s]?).join = none) ∧
      Serves e p.records v.maskVocabSize a := by
  obtain ⟨key, lbl, hspells, hfit⟩ := ht.spells
  cases mode with
  | naive =>
    obtain ⟨rfl, hcache⟩ := newFull_ok h
    exact ⟨rfl, rfl, hcache, .naive rfl rfl⟩
  | trieJointByte =>
    obtain ⟨_, _, rfl, hcache, hserves⟩ := newTriePrevalidated_serves ht h
    exact ⟨rfl, rfl, hcache, hserves⟩
  | trieJointClass =>
    obtain ⟨_, _, rfl, hcache, hserves⟩ := newTriePrevalidated_serves ht h
    exact ⟨rfl, rfl, hcache, hserves⟩
  | trieJointByteLazy =>
    simp only [CompiledArtifact.bind, newLazyTrie] at h
    split at h
    · cases h
    obtain ⟨rfl, hcache⟩ := newFull_ok h
    exact ⟨rfl, rfl, hcache, .lazy t key lbl rfl rfl rfl hspells hfit⟩
  | trieJointBytePacked =>
    simp only [CompiledArtifact.bind, newPackedFromTrie] at h
    split at h
    · cases h
    split at h
    · cases h
    obtain ⟨-, -, h⟩ := bind_ok h
    obtain ⟨words, hfill, h⟩ := bind_ok h
    obtain ⟨rfl, hcache⟩ := newFull_ok h
    unfold fillPackedRows at hfill
    split at hfill
    · cases hfill
    rename_i hwidth
    rw [not_not.1 hwidth] at hfill ⊢
    obtain ⟨rows, hrows, hfill⟩ := bind_ok hfill
    cases hfill
    obtain ⟨hlen, hw, hbits⟩ := packedRows_ok hspells hfit p.nonEmptyTokens _ _ _ StepMemo.bounded_new hrows
    rw [List.length_range] at hlen
    refine ⟨rfl, rfl, hcache, .packed rows rfl rfl hlen hw ?_⟩
    intro s row hrow
    have hs : s < e.stateCount := by
      have := (List.getElem?_eq_some_iff.1 hrow).1
      omega
    exact hbits s s row (by rw [List.getElem?_range hs]) hrow

variable {e : RefEngine} {records : List TokenRecord} {a : CompiledArtifact eos}

/-- The bits of a packed row, forged states included. -/
theorem packed_testBit {n : Nat} {rows : List (List Word)} (hne : ∀ r ∈ records, r.1 ≠ [])
    (hlen : rows.length = e.stateCount) (hw : ∀ row ∈ rows, row.length = divCeil n wordBits)
    (hbits : ∀ (s : Nat) row, rows[s]? = some row → ∀ j, (Bitmask.testBit row j = true ↔ Survives e records s j) ∧
      (Survives e records s j → j < n)) {s : Nat} {row : List Word}
    (h : PackedMaskTable.row ⟨divCeil n wordBits, rows.flatten⟩ s = some row) (j : Nat) :
    Bitmask.testBit row j = true ↔ Survives e records s j := by
  rcases packed_row hw h with hrow | ⟨hs, rfl⟩
  · exact (hbits s row hrow j).1
  · have : ¬ Survives e records s j := not_survives_out_of_range (by omega) hne j
    simp [Bitmask.testBit, this]

theorem packedMask_ok {n : Nat} {rows : List (List Word)} (hne : ∀ r ∈ records, r.1 ≠ [])
    (hlen : rows.length = e.stateCount) (hw : ∀ row ∈ rows, row.length = divCeil n wordBits)
    (hbits : ∀ (s : Nat) row, rows[s]? = some row → ∀ j, (Bitmask.testBit row j = true ↔ Survives e records s j) ∧
      (Survives e records s j → j < n)) (hp : a.packed = some ⟨divCeil n wordBits, rows.flatten⟩)
    (hn : a.vocab.maskVocabSize = n) (s : Nat) : MaskOf e records n s (a.packedMask s) := by
  unfold packedMask
  rw [hp, hn]
  simp only [Option.bind_some]
  cases hrow : PackedMaskTable.row ⟨divCeil n wordBits, rows.flatten⟩ s with
  | none =>
    have := packed_row_none hw hrow
    exact maskOf_zeros (by omega) hne
  | some row =>
    simp only
    rcases packed_row hw hrow with hget | ⟨hs, rfl⟩
    · have htidy : Bitmask.Tidy ⟨row, n⟩ := by
        refine ⟨hw row (List.mem_of_getElem? hget), fun j hj => ?_⟩
        have hb := hbits s row hget j
        have hj : n ≤ j := hj
        rw [← Bool.not_eq_true, hb.1]
        intro hsurv
        have := hb.2 hsurv
        omega
      rw [Bitmask.fromWords_eq htidy]
      exact ⟨htidy, rfl, fun j => by rw [htidy.get_eq]; exact (hbits s row hget j).1⟩
    · have hw0 : divCeil n wordBits = 0 := by
        unfold PackedMaskTable.row at hrow
        simp only at hrow
        split at hrow
        case isFalse => cases hrow
        rename_i hle
        have hempty := Option.some.inj hrow
        have hlen' := congrArg List.length hempty
        simp only [slice, List.length_take, List.length_drop, List.length_nil] at hlen'
        omega
      have htidy : Bitmask.Tidy ⟨[], n⟩ := ⟨hw0.symm, fun j _ => rfl⟩
      rw [Bitmask.fromWords_eq htidy]
      refine ⟨htidy, rfl, fun j => ?_⟩
      have : ¬ Survives e records s j := not_survives_out_of_range (by omega) hne j
      rw [htidy.get_eq]
      simp [Bitmask.testBit, this]

/-- **Every mode's mask is the mask of the engine's survivors.** -/
theorem allowedMask_ok (hserves : Serves e records a.vocab.maskVocabSize a) (he : a.engine = e)
    (hrec : a.vocab.prepared.records = records) (hne : ∀ r ∈ records, r.1 ≠ []) {permit : Permit} {s : Nat}
    {m : Bitmask} (h : a.allowedMask permit s = .ok m) : MaskOf e records a.vocab.maskVocabSize s m := by
  unfold allowedMask at h
  cases hserves with
  | naive hmode _ =>
    simp only [hmode] at h
    rw [he, hrec] at h
    obtain ⟨h1, h2, h3⟩ := e.allowedTokensFromRecords_ok h
    refine ⟨h1, h2, fun j => ?_⟩
    rw [h3 j]
    constructor
    · rintro ⟨r, hr, hc, hid⟩
      exact ⟨r, hr, hid, hc⟩
    · rintro ⟨r, hr, hid, hc⟩
      exact ⟨r, hr, hc, hid⟩
  | index index hmode _ hindex hlen hmem =>
    have h : a.maskFromIndex s = .ok m := by
      rcases hmode with hm | hm <;> (rw [hm] at h; exact h)
    unfold maskFromIndex at h
    rw [hindex] at h
    simp only at h
    split at h
    · rename_i hnone
      cases h
      exact maskOf_zeros (by rw [List.getElem?_eq_none_iff] at hnone; omega) hne
    · rename_i row hrow
      obtain ⟨h1, h2, h3⟩ := foldlM_set_ok row _ m (Bitmask.tidy_zeros _) h
      refine ⟨h1, h2, fun j => ?_⟩
      rw [h3 j, survives_iff]
      simp [hmem s row hrow]
  | lazy t key lbl hmode _ htrie hspells hfit =>
    simp only [hmode] at h
    unfold maskFromLazyWalk at h
    rw [he] at h
    split at h
    · rename_i hs
      cases h
      exact maskOf_zeros hs hne
    · rw [htrie] at h
      obtain ⟨h1, h2, h3⟩ := walkStateMaskInto_ok hspells hfit hne h
      exact ⟨h1, h2, h3⟩
  | packed rows hmode hp hlen hw hbits =>
    simp only [hmode] at h
    cases h
    exact packedMask_ok hne hlen hw hbits hp rfl s

/-! ## The cache -/

/-- Every cached mask is the mask of its state. -/
def CacheOk (e : RefEngine) (records : List TokenRecord) (n : Nat) (cache : MaskRows) : Prop :=
  ∀ rows, cache = .lazy rows → ∀ (s : Nat) m, (rows.rows[s]?).join = some (.cached (.ok m)) → MaskOf e records n s m

theorem join_set {rows : List (Option SlotValue)} {s s' : Nat} {x y : SlotValue}
    (h : ((rows.set s (some x))[s']?).join = some y) : (s' = s ∧ y = x) ∨ (rows[s']?).join = some y := by
  rw [List.getElem?_set] at h
  split at h
  · rename_i hs
    split at h
    · cases h
      exact Or.inl ⟨hs.symm, rfl⟩
    · cases h
  · exact Or.inr h

theorem getOrCompute_ok {n s b : Nat} {rows : LazyRows} {compute : Except CompileError Bitmask}
    (hrows : ∀ (s : Nat) m, (rows.rows[s]?).join = some (.cached (.ok m)) → MaskOf e records n s m)
    (hc : ∀ m, compute = .ok m → MaskOf e records n s m) :
    (∀ m, (rows.getOrCompute s b compute).1 = .ok m → MaskOf e records n s m) ∧
      ∀ (s' : Nat) m, ((rows.getOrCompute s b compute).2.rows[s']?).join = some (.cached (.ok m)) →
        MaskOf e records n s' m := by
  unfold LazyRows.getOrCompute
  cases hslot : (rows.rows[s]?).join with
  | some v =>
    cases v with
    | cached r => exact ⟨fun m hm => hrows s m (by rw [hslot, ← hm]), hrows⟩
    | uncached => exact ⟨hc, hrows⟩
  | none =>
    simp only [LazyRows.init]
    by_cases hb : rows.retainedBytes + b ≤ rows.budgetBytes
    · simp only [if_pos hb]
      refine ⟨hc, fun s' m hm => ?_⟩
      rcases join_set hm with ⟨rfl, hx⟩ | hold
      · cases hx
        exact hc m rfl
      · exact hrows s' m hold
    · simp only [if_neg hb]
      refine ⟨hc, fun s' m hm => ?_⟩
      rcases join_set hm with ⟨rfl, hx⟩ | hold
      · cases hx
      · exact hrows s' m hold

theorem cachedMask_ok (hserves : Serves e records a.vocab.maskVocabSize a) (he : a.engine = e)
    (hrec : a.vocab.prepared.records = records) (hne : ∀ r ∈ records, r.1 ≠ []) {permit : Permit} {s : Nat}
    {cache : MaskRows} (hcache : CacheOk e records a.vocab.maskVocabSize cache) :
    (∀ m, (a.cachedMask permit s cache).1 = .ok m → MaskOf e records a.vocab.maskVocabSize s m) ∧
      CacheOk e records a.vocab.maskVocabSize (a.cachedMask permit s cache).2 := by
  have hmask : ∀ m, a.allowedMask permit s = .ok m → MaskOf e records a.vocab.maskVocabSize s m :=
    fun m hm => allowedMask_ok hserves he hrec hne hm
  unfold cachedMask
  split
  · rename_i hp
    refine ⟨fun m hm => ?_, hcache⟩
    cases hserves with
    | naive _ hnone => rw [hnone] at hp; cases hp
    | index _ _ hnone _ _ _ => rw [hnone] at hp; cases hp
    | lazy _ _ _ _ hnone _ _ _ => rw [hnone] at hp; cases hp
    | packed rows hmode hp hlen hw hbits =>
      cases hm
      exact packedMask_ok hne hlen hw hbits hp rfl s
  · split
    · exact ⟨hmask, hcache⟩
    · cases cache with
      | disabled => exact ⟨hmask, hcache⟩
      | lazy rows =>
        obtain ⟨h1, h2⟩ := getOrCompute_ok (b := a.vocab.maskWidthWords * 4 + maskCacheEntryOverhead)
          (hcache rows rfl) hmask
        refine ⟨h1, ?_⟩
        rintro rows' h
        cases h
        exact h2

theorem queried_ok (hserves : Serves e records a.vocab.maskVocabSize a) (he : a.engine = e)
    (hrec : a.vocab.prepared.records = records) (hne : ∀ r ∈ records, r.1 ≠ []) {cache₀ cache : MaskRows}
    (h₀ : ∀ rows, cache₀ = .lazy rows → ∀ s : Nat, (rows.rows[s]?).join = none) (h : Queried a cache₀ cache) :
    CacheOk e records a.vocab.maskVocabSize cache := by
  induction h with
  | bound =>
    intro rows hrows s m hm
    rw [h₀ rows hrows s] at hm
    cases hm
  | query permit s _ ih => exact (cachedMask_ok hserves he hrec hne ih).2

end CompiledArtifact

theorem Matcher.advance_ok {eos : Nat} (a : CompiledArtifact eos) (m : Matcher) (tok : Nat) :
    ((m.advance a tok).1 = .ok () ∧ ∃ bytes, a.vocab.tokenBytes tok = some bytes ∧
        a.engine.consumeToken m.state bytes = some (m.advance a tok).2.state ∧
        (m.advance a tok).2.bytesSeen = m.bytesSeen + bytes.length) ∨
      (m.advance a tok = (.error (.illegalToken tok), m) ∧
        ∀ bytes, a.vocab.tokenBytes tok = some bytes → a.engine.consumeToken m.state bytes = none) := by
  unfold Matcher.advance
  cases hb : a.vocab.tokenBytes tok with
  | none => exact Or.inr ⟨rfl, fun bytes h => by cases h⟩
  | some bytes =>
    cases hc : a.engine.consumeToken m.state bytes with
    | none =>
      refine Or.inr ⟨by simp only [hc], ?_⟩
      rintro bytes' h
      cases h
      exact hc
    | some next => exact Or.inl ⟨by simp only [hc], bytes, rfl, by simp only [hc], by simp only [hc]⟩

/-- **The mask and the advance agree, in every bind mode**: bits, ids and packed rows are the ordinary tokens the engine
survives, two binds of one vocabulary and engine give one mask, and a matcher moves exactly on a set bit. -/
theorem mask_advance_contract {eos : Nat} {d : Digests} {p : PreparedVocabulary eos} {logits : Option Nat}
    {v : CanonicalVocabulary eos} {e : RefEngine} {t : VocabTrie} {env : BindEnv} {mode : BindMode}
    {a : CompiledArtifact eos} {cache₀ : MaskRows} (hv : CanonicalVocabulary.fromPrepared d p logits = .ok v)
    (ht : BuiltFrom d p e t) (ha : CompiledArtifact.bind d env e v mode t = .ok (a, cache₀)) :
    (∀ permit s m, a.allowedMask permit s = .ok m → ∀ j, m.get j = true ↔ Allowed v e s j) ∧
    (∀ cache, CompiledArtifact.Queried a cache₀ cache → ∀ permit s ids, (a.allowedIds permit s cache).1 = .ok ids →
      ∀ j, j ∈ ids ↔ Allowed v e s j) ∧
    (∀ s row, a.maskRowWords s = some row → ∀ j, Bitmask.testBit row j = true ↔ Allowed v e s j) ∧
    (∀ t' env' mode' a' cache', BuiltFrom d p e t' → CompiledArtifact.bind d env' e v mode' t' = .ok (a', cache') →
      ∀ permit permit' s m m', a.allowedMask permit s = .ok m → a'.allowedMask permit' s = .ok m' → m = m') ∧
    (∀ M, Matcher.Reached a M → ∀ tok,
      ((M.advance a tok).1 = .ok () ↔ Allowed v e M.state tok) ∧
      (∀ permit m, a.allowedMask permit M.state = .ok m → ((M.advance a tok).1 = .ok () ↔ m.get tok = true)) ∧
      ((M.advance a tok).1 = .ok () → ∃ bytes, v.tokenBytes tok = some bytes ∧
        e.consumeToken M.state bytes = some (M.advance a tok).2.state) ∧
      ∀ err, (M.advance a tok).1 = .error err → (M.advance a tok).2 = M) := by
  have hbound := CanonicalVocabulary.fromPrepared_ok hv
  have hallowed := allowed_iff_survives hbound e
  have hmask : ∀ {t env mode} {a : CompiledArtifact eos} {cache}, BuiltFrom d p e t →
      CompiledArtifact.bind d env e v mode t = .ok (a, cache) → ∀ {permit s m}, a.allowedMask permit s = .ok m →
      MaskOf e p.records v.maskVocabSize s m := by
    intro t env mode a cache ht ha permit s m hm
    obtain ⟨he, hvoc, -, hserves⟩ := CompiledArtifact.bind_serves ht ha
    rw [← hvoc] at hserves ⊢
    exact CompiledArtifact.allowedMask_ok hserves he (by rw [hvoc, hbound.prepared]) p.nonEmptyTokens hm
  obtain ⟨he, hvoc, hcache, hserves⟩ := CompiledArtifact.bind_serves ht ha
  have hbits : ∀ permit s m, a.allowedMask permit s = .ok m → ∀ j, m.get j = true ↔ Allowed v e s j := by
    intro permit s m hm j
    rw [hallowed, (hmask ht ha hm).bits]
  have hadvance : ∀ (M : Matcher) tok, (M.advance a tok).1 = .ok () ↔ Allowed v e M.state tok := by
    intro M tok
    rw [hallowed]
    rcases M.advance_ok a tok with ⟨hok, bytes, hb, hc, -⟩ | ⟨herr, hnone⟩
    · refine iff_of_true hok ((hallowed _ _).1 ?_)
      rw [hvoc] at hb
      rw [he] at hc
      obtain ⟨r, hr, -, hid⟩ := (CanonicalVocabulary.tokenBytes_iff hbound tok bytes).1 hb
      exact ⟨⟨r, by rw [hbound.prepared]; exact hr, hid⟩, bytes, hb, by rw [hc]; rfl⟩
    · refine iff_of_false (by rw [herr]; simp) fun hs => ?_
      obtain ⟨-, bytes, hb, hc⟩ := (hallowed _ _).2 hs
      rw [hvoc, he] at hnone
      rw [hnone bytes hb] at hc
      cases hc
  refine ⟨hbits, ?_, ?_, ?_, ?_⟩
  · intro cache hq permit s ids hids j
    rw [← hvoc] at hserves
    have hrec : a.vocab.prepared.records = p.records := by rw [hvoc, hbound.prepared]
    have hok := CompiledArtifact.queried_ok hserves he hrec p.nonEmptyTokens hcache hq
    have hget : ∀ m, (a.cachedMask permit s cache).1 = .ok m → MaskOf e p.records a.vocab.maskVocabSize s m :=
      (CompiledArtifact.cachedMask_ok hserves he hrec p.nonEmptyTokens hok).1
    unfold CompiledArtifact.allowedIds at hids
    cases hm : (a.cachedMask permit s cache).1 with
    | error err =>
      simp only [hm] at hids
      cases hids
    | ok m =>
      simp only [hm] at hids
      cases hids
      have hof := hget m hm
      rw [Bitmask.mem_setIds, ← hof.tidy.get_eq, hof.bits, hallowed]
  · intro s row hrow j
    unfold CompiledArtifact.maskRowWords at hrow
    rw [hallowed]
    cases hserves with
    | naive _ hnone => rw [hnone] at hrow; cases hrow
    | index _ _ hnone _ _ _ => rw [hnone] at hrow; cases hrow
    | lazy _ _ _ _ hnone _ _ _ => rw [hnone] at hrow; cases hrow
    | packed rows hmode hp hlen hw hbits =>
      rw [hp, Option.bind_some] at hrow
      exact CompiledArtifact.packed_testBit p.nonEmptyTokens hlen hw hbits hrow j
  · intro t' env' mode' a' cache' ht' ha' permit permit' s m m' hm hm'
    exact (hmask ht ha hm).eq (hmask ht' ha' hm')
  · intro M _ tok
    refine ⟨hadvance M tok, ?_, ?_, ?_⟩
    · intro permit m hm
      rw [hadvance, hbits permit M.state m hm]
    · intro hok
      rcases M.advance_ok a tok with ⟨-, bytes, hb, hc, -⟩ | ⟨herr, -⟩
      · exact ⟨bytes, by rw [← hvoc]; exact hb, by rw [← he]; exact hc⟩
      · rw [herr] at hok
        cases hok
    · intro err herr
      rcases M.advance_ok a tok with ⟨hok, -⟩ | ⟨hM, -⟩
      · rw [hok] at herr
        cases herr
      · rw [hM]

/-! ## The contract at a vocabulary of two tokens -/

/-- The engine of the regular expression `a`: DEAD, the start, and the accepting state. -/
def letterEngineData : EngineData where
  rowOffsets := [0, 0, 1, 1]
  edges := [(0, 2)]
  accepting := [false, false, true]
  residualCardinality := [0, 1, 1]
  liveClasses := [0, 1, 0]
  classTable := ⟨[[97], ((List.range 256).map UInt8.ofNat).filter (· ≠ 97)], fun b => if b = 97 then 0 else 1⟩
  classCount := 2
  stateCount := 3
  start := 1

theorem letterEngineData_wf : letterEngineData.Wf where
  rows := rfl
  sorted := by decide
  targets := by decide
  deadRow := rfl
  acceptingLen := rfl
  deadRejects := rfl
  liveLen := rfl
  live := by
    intro s m hm c
    rcases s with _ | _ | _ | s
    · cases hm
      simp [letterEngineData, EngineData.row, CountingSort.slice]
    · cases hm
      rw [getLsbD_first]
      simp [letterEngineData, EngineData.row, CountingSort.slice]
    · cases hm
      simp [letterEngineData, EngineData.row, CountingSort.slice]
    · cases hm
  classes := rfl
  classOf := by
    intro b
    simp only [letterEngineData]
    split <;> decide
  members := by
    intro c bs hbs b
    rcases c with _ | _ | c
    · cases hbs
      by_cases hb : b = 97 <;> simp [letterEngineData, hb]
    · cases hbs
      rw [List.mem_filter]
      by_cases hb : b = 97 <;> simp [letterEngineData, hb, mem_every b]
    · cases hbs
  classCap := by decide
  startLt := by decide

def letterEngine : RefEngine := ⟨letterEngineData, letterEngineData_wf⟩

/-- Two tokens: the letter itself under id 0, and the next letter under id 2. -/
def letterVocabulary : PreparedVocabulary 1 where
  records := [([97], [0]), ([98], [2])]
  sorted := by decide
  nonEmptyTokens := by simp
  nonEmptyIds := by simp
  ascendingIds := by simp
  eosFree := by simp

def letterDigests : Digests := ⟨fun _ _ => 0, fun _ => 0⟩

/-- Binds the letter vocabulary in packed mode and asks for the mask of the start state. -/
def letterMask : Except CompileError Bitmask :=
  CanonicalVocabulary.fromPrepared letterDigests letterVocabulary none >>= fun v =>
    VocabTrie.buildByteFromPrepared letterVocabulary (letterDigests.vocab letterVocabulary.records 1) >>= fun t =>
      CompiledArtifact.bind letterDigests ⟨.ok (), .ok ()⟩ letterEngine v .trieJointBytePacked t >>= fun ac =>
        ac.1.allowedMask (.ok ()) 1

/-- The letter is let through and taken, the next letter is neither. -/
theorem mask_advance_contract_letters : ∃ v t a cache m,
    CanonicalVocabulary.fromPrepared letterDigests letterVocabulary none = .ok v ∧
    BuiltFrom letterDigests letterVocabulary letterEngine t ∧
    CompiledArtifact.bind letterDigests ⟨.ok (), .ok ()⟩ letterEngine v .trieJointBytePacked t = .ok (a, cache) ∧
    a.allowedMask (.ok ()) 1 = .ok m ∧ m.get 0 = true ∧ Allowed v letterEngine 1 0 ∧ m.get 2 = false ∧
    ¬Allowed v letterEngine 1 2 ∧ ∀ M, Matcher.Reached a M → M.state = 1 →
      (M.advance a 0).1 = .ok () ∧ (M.advance a 2).1 ≠ .ok () := by
  have hset : (letterMask.toOption.map (fun m => (m.get 0, m.get 2))) = some (true, false) := by decide +kernel
  cases h : letterMask with
  | error err =>
    rw [h] at hset
    cases hset
  | ok m =>
    rw [h] at hset
    have hget : (m.get 0, m.get 2) = (true, false) := Option.some.inj hset
    obtain ⟨hfirst, hsecond⟩ := Prod.mk.inj hget
    obtain ⟨v, hv, h⟩ := bind_ok h
    obtain ⟨t, ht, h⟩ := bind_ok h
    obtain ⟨⟨a, cache⟩, ha, h⟩ := bind_ok h
    obtain ⟨hmask, -, -, -, hadvance⟩ := mask_advance_contract hv (BuiltFrom.byte ht) ha
    have hrefused : ¬m.get 2 = true := by simp [hsecond]
    refine ⟨v, t, a, cache, m, hv, .byte ht, ha, h, hfirst, (hmask _ _ _ h 0).1 hfirst, hsecond,
      fun hallowed => hrefused ((hmask _ _ _ h 2).2 hallowed), fun M hM hstate => ?_⟩
    have hagree := fun tok => (hadvance M hM tok).2.1 (.ok ()) m (by rw [hstate]; exact h)
    exact ⟨(hagree 0).2 hfirst, fun hok => hrefused ((hagree 2).1 hok)⟩

end MaskForge
