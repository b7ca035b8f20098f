import MaskForge.Index.Slice
/-!
# SliceExact — the slices partition the vocabulary and the bounds are exact

The standard library's UTF-8 check and the hand-written string decoder agree on plain text, so a safe token stays inside
a string body.  The tries of the catalogue then hold each token of the vocabulary in one place, and a bounded mask has
exactly the safe tokens within its bounds.
-/
namespace MaskForge

open Forest (Path)
open JsonStringDecoder (feed between)

/-! ## Plain text -/

/-- What a safe token is: non-empty text of at most `u16::MAX` characters that a string body takes as it is. -/
structure Plain (bytes : List Byte) (text : List Char) : Prop where
  nonEmpty : bytes ≠ []
  encodes : bytes = text.flatMap String.utf8EncodeChar
  body : ∀ b ∈ bytes, 0x20 ≤ b.toNat ∧ b ≠ 0x22 ∧ b ≠ 0x5c
  counted : text.length < 2 ^ 16

theorem safeScalarCount_some {bytes : List Byte} {n : Nat} :
    safeScalarCount bytes = some n ↔ ∃ text, Plain bytes text ∧ text.length = n := by
  unfold safeScalarCount
  split
  · rename_i h
    constructor
    · intro h
      cases h
    · rintro ⟨text, hplain, -⟩
      rcases h with h | h
      · exact absurd h hplain.nonEmpty
      · obtain ⟨b, hb, hbad⟩ := List.any_eq_true.1 h
        obtain ⟨hlow, hquote, hslash⟩ := hplain.body b hb
        simp only [decide_eq_true_eq, UInt8.lt_iff_toNat_lt] at hbad
        rcases hbad with hbad | hbad | hbad
        · exact absurd hbad (Nat.not_lt.2 hlow)
        · exact absurd hbad hquote
        · exact absurd hbad hslash
  · rename_i h
    have hne : bytes ≠ [] := fun hnil => h (.inl hnil)
    have hbody : ∀ b ∈ bytes, 0x20 ≤ b.toNat ∧ b ≠ 0x22 ∧ b ≠ 0x5c := by
      intro b hb
      have hok : ¬(b < 0x20 ∨ b = 0x22 ∨ b = 0x5c) := fun hbad =>
        h (.inr (List.any_eq_true.2 ⟨b, hb, by simpa using hbad⟩))
      refine ⟨Nat.not_lt.1 fun hlt => hok (.inl (UInt8.lt_iff_toNat_lt.2 hlt)), fun he => hok (.inr (.inl he)),
        fun he =>
        hok (.inr (.inr he))⟩
    cases htext : strFromUtf8 bytes with
    | none =>
      constructor
      · intro h
        cases h
      · rintro ⟨text, hplain, -⟩
        rw [(strFromUtf8_iff bytes text).2 hplain.encodes] at htext
        cases htext
    | some text =>
      have hencodes := (strFromUtf8_iff bytes text).1 htext
      simp only
      split
      · rename_i hcount
        constructor
        · intro h
          exact ⟨text, ⟨hne, hencodes, hbody, hcount⟩, Option.some.inj h⟩
        · rintro ⟨text', hplain, hlen⟩
          rw [(strFromUtf8_iff bytes text').2 hplain.encodes] at htext
          cases htext
          rw [hlen]
      · rename_i hcount
        constructor
        · intro h
          cases h
        · rintro ⟨text', hplain, -⟩
          rw [(strFromUtf8_iff bytes text').2 hplain.encodes] at htext
          cases htext
          exact absurd hplain.counted hcount

/-- Plain text is one spelling of its characters. -/
theorem spells_plain :
    ∀ (text : List Char), (∀ b ∈ text.flatMap String.utf8EncodeChar, 0x20 ≤ b.toNat ∧ b ≠ 0x22 ∧ b ≠ 0x5c) →
    List.Forall₂ Spells (text.map String.utf8EncodeChar) text
  | [], _ => .nil
  | c :: text, h => by
    have hc : ∀ b ∈ String.utf8EncodeChar c, 0x20 ≤ b.toNat ∧ b ≠ 0x22 ∧ b ≠ 0x5c := fun b hb =>
      h b (List.mem_append_left _ hb)
    refine .cons ?_ (spells_plain text fun b hb => h b (List.mem_append_right _ hb))
    by_cases hascii : c.toNat < 0x80
    · rw [utf8Encode_ascii hascii] at hc
      obtain ⟨hlow, hquote, hslash⟩ := hc _ List.mem_cons_self
      have hval : (UInt8.ofNat c.toNat).toNat = c.toNat := by
        rw [UInt8.toNat_ofNat']
        omega
      rw [hval] at hlow
      refine .raw c hlow (fun he => ?_) fun he => ?_
      · subst he
        exact hquote rfl
      · subst he
        exact hslash rfl
    · refine .raw c (by omega) (fun he => ?_) fun he => ?_
      · subst he
        exact hascii (by decide)
      · subst he
        exact hascii (by decide)

/-- **The decoder takes plain text whole.** -/
theorem Plain.feed {bytes : List Byte} {text : List Char} (h : Plain bytes text) :
    JsonStringDecoder.new.feed bytes = some (text, between text.length) := by
  have hbody := h.body
  rw [h.encodes] at hbody
  have hfeed := JsonStringDecoder.feed_spelling (spells_plain text hbody) 0
  rw [← List.flatMap_def, ← h.encodes, Nat.zero_add] at hfeed
  exact hfeed

/-! ## Tokens that stay inside a body -/

/-- Every byte of a token goes into the body: none is refused, and none is a quote between two characters. -/
def StaysWithin (bytes : List Byte) : Prop :=
  bytes ≠ [] ∧ ∀ before b after, bytes = before ++ b :: after → ∃ chars d,
    JsonStringDecoder.new.feed before = some (chars, d) ∧
    ¬(b = 0x22 ∧ d.atBoundary = true) ∧ (d.push b).1 ≠ .invalid

/-- A quote between two characters is one the body does not take. -/
theorem push_quote {d : JsonStringDecoder} (h : d.atBoundary = true) : (d.push 0x22).1 = .invalid := by
  obtain ⟨escape, utf8, pending, n⟩ := d
  simp only [JsonStringDecoder.atBoundary, Bool.and_eq_true, decide_eq_true_eq, Option.isNone_iff_eq_none] at h
  obtain ⟨⟨rfl, rfl⟩, rfl⟩ := h
  rfl

theorem bodyClassLoop_within : ∀ (bytes : List Byte) (d : JsonStringDecoder),
    bodyClassLoop d bytes = .within ↔ (d.feed bytes).isSome
  | [], d => by simp [bodyClassLoop, JsonStringDecoder.feed]
  | b :: bs, d => by
    unfold bodyClassLoop JsonStringDecoder.feed
    by_cases hquote : b = 0x22 ∧ d.atBoundary = true
    · obtain ⟨rfl, hd⟩ := hquote
      have hpush := push_quote hd
      rw [if_pos ⟨rfl, hd⟩]
      cases hstep : d.push 0x22 with
      | mk step d' =>
        rw [hstep] at hpush
        simp only at hpush
        subst hpush
        simp
    · rw [if_neg hquote]
      cases hstep : d.push b with
      | mk step d' =>
        cases step with
        | cont => exact bodyClassLoop_within bs d'
        | scalar c =>
          rw [Option.isSome_map]
          exact bodyClassLoop_within bs d'
        | invalid => simp

theorem feed_isSome_iff (bytes : List Byte) (d : JsonStringDecoder) : (d.feed bytes).isSome ↔
    ∀ before b after, bytes = before ++ b :: after → ∃ chars d', d.feed before = some (chars, d') ∧
    (d'.push b).1 ≠ .invalid := by
  constructor
  · rintro h before b after rfl
    rw [JsonStringDecoder.feed_append] at h
    cases hb : d.feed before with
    | none =>
      rw [hb] at h
      cases h
    | some r =>
      rw [hb, Option.bind_some, Option.isSome_map, JsonStringDecoder.feed] at h
      refine ⟨r.1, r.2, rfl, fun hinvalid => ?_⟩
      split at h
      · simp_all
      · simp_all
      · cases h
  · intro h
    induction bytes using List.reverseRecOn with
    | nil => rfl
    | append_singleton bytes b ih =>
      obtain ⟨chars, d', hfeed, hpush⟩ := h bytes b [] rfl
      rw [JsonStringDecoder.feed_append, hfeed, Option.bind_some, Option.isSome_map, JsonStringDecoder.feed]
      split
      · rfl
      · rw [Option.isSome_map]
        rfl
      · rename_i hinvalid
        rw [hinvalid] at hpush
        exact absurd rfl hpush

/-- **The body class is what the decoder does.** -/
theorem bodyPrefix_iff (bytes : List Byte) : bodyPrefix bytes = true ↔ StaysWithin bytes := by
  unfold bodyPrefix bodyClass StaysWithin
  rw [decide_eq_true_eq]
  by_cases hnil : bytes = []
  · rw [if_pos hnil]
    constructor
    · intro h
      cases h
    · exact fun h => absurd hnil h.1
  · rw [if_neg hnil, bodyClassLoop_within, feed_isSome_iff]
    constructor
    · intro h
      refine ⟨hnil, fun before b after heq => ?_⟩
      obtain ⟨chars, d, hfeed, hpush⟩ := h before b after heq
      refine ⟨chars, d, hfeed, ?_, hpush⟩
      rintro ⟨rfl, hd⟩
      exact hpush (push_quote hd)
    · rintro ⟨-, h⟩ before b after heq
      obtain ⟨chars, d, hfeed, -, hpush⟩ := h before b after heq
      exact ⟨chars, d, hfeed, hpush⟩

/-- A safe token stays within the body. -/
theorem safe_bodyPrefix {bytes : List Byte} (h : (safeScalarCount bytes).isSome) : bodyPrefix bytes = true := by
  obtain ⟨n, hn⟩ := Option.isSome_iff_exists.1 h
  obtain ⟨text, hplain, -⟩ := safeScalarCount_some.1 hn
  unfold bodyPrefix bodyClass
  rw [if_neg hplain.nonEmpty, decide_eq_true_eq, bodyClassLoop_within, hplain.feed]
  rfl

/-! ## Masks -/

variable {eos : Nat} {v : CanonicalVocabulary eos}

open PackedBits (bit)

theorem setId_ok {mask mask' : TokenMask} {id : Nat} (h : setId mask id = .ok mask') :
    mask'.length = mask.length ∧ ∀ i, bit mask' i = (bit mask i || decide (i = id)) := by
  unfold setId at h
  split at h
  · rename_i hid
    cases h
    exact ⟨PackedBits.length_insert _ _, PackedBits.bit_insert (by decide) hid⟩
  · cases h

theorem setIds_ok : ∀ {ids : List Nat} {mask mask' : TokenMask}, ids.foldlM setId mask = .ok mask' →
    mask'.length = mask.length ∧ ∀ i, bit mask' i = true ↔ bit mask i = true ∨ i ∈ ids
  | [], mask, mask', h => by
    cases h
    simp
  | id :: ids, mask, mask', h => by
    rw [List.foldlM_cons] at h
    obtain ⟨middle, hset, h⟩ := bind_ok h
    obtain ⟨hlen, hbit⟩ := setId_ok hset
    obtain ⟨hlen', hbit'⟩ := setIds_ok h
    refine ⟨hlen'.trans hlen, fun i => ?_⟩
    rw [hbit', hbit]
    simp only [Bool.or_eq_true, decide_eq_true_eq, List.mem_cons, or_assoc]

theorem tokenMaskWhere_ok {keep : List Byte → Bool} {mask : TokenMask} (h : tokenMaskWhere v keep = .ok mask) :
    mask.length = maskWords v ∧
      ∀ id, bit mask id = true ↔ ∃ r ∈ v.prepared.records, keep r.1 = true ∧ id ∈ r.2 := by
  have hloop : ∀ (records : List TokenRecord) (start final : TokenMask),
      records.foldlM (fun mask r => if keep r.1 then r.2.foldlM setId mask else .ok mask) start = .ok final →
      final.length = start.length ∧
        ∀ id, bit final id = true ↔ bit start id = true ∨ ∃ r ∈ records, keep r.1 = true ∧ id ∈ r.2 := by
    intro records
    induction records with
    | nil =>
      intro start final h
      cases h
      simp
    | cons r records ih =>
      intro start final h
      rw [List.foldlM_cons] at h
      obtain ⟨middle, hr, h⟩ := bind_ok h
      obtain ⟨hlen, hbit⟩ := ih middle final h
      by_cases hkeep : keep r.1 = true
      · rw [if_pos hkeep] at hr
        obtain ⟨hlen', hbit'⟩ := setIds_ok hr
        refine ⟨hlen.trans hlen', fun id => ?_⟩
        rw [hbit, hbit', or_assoc]
        simp [hkeep]
      · rw [if_neg hkeep] at hr
        cases hr
        refine ⟨hlen, fun id => ?_⟩
        rw [hbit]
        simp [hkeep]
  obtain ⟨hlen, hbit⟩ := hloop _ _ _ h
  refine ⟨hlen.trans List.length_replicate, fun id => ?_⟩
  rw [hbit]
  simp

/-- Bit `i` of level `k`. -/
def bitAt (levels : List TokenMask) (k i : Nat) : Bool := bit (levels[k]?.getD []) i

theorem setLevel_ok {level id : Nat} {exact exact' : List TokenMask} (h : setLevel level exact id = .ok exact') :
    exact'.map List.length = exact.map List.length ∧
      ∀ k i, bitAt exact' k i = (bitAt exact k i || decide (k = level ∧ i = id)) := by
  unfold setLevel at h
  split at h
  · cases h
  · rename_i mask hmask
    obtain ⟨mask', hset, h⟩ := bind_ok h
    cases h
    obtain ⟨hlen, hbit⟩ := setId_ok hset
    obtain ⟨hlt, rfl⟩ := List.getElem?_eq_some_iff.1 hmask
    refine ⟨?_, fun k i => ?_⟩
    · rw [List.map_set, hlen]
      refine List.ext_getElem (by simp) fun j hj hj' => ?_
      rw [List.getElem_set]
      split
      · rename_i heq
        subst heq
        simp
      · rfl
    · unfold bitAt
      rw [List.getElem?_set]
      by_cases hk : level = k
      · subst hk
        rw [if_pos rfl, if_pos hlt, hmask]
        simp [hbit]
      · simp [hk, Ne.symm hk]

theorem setLevels_ok {level : Nat} : ∀ {ids : List Nat} {exact exact' : List TokenMask},
    ids.foldlM (setLevel level) exact = .ok exact' →
    exact'.map List.length = exact.map List.length ∧
      ∀ k i, bitAt exact' k i = true ↔ bitAt exact k i = true ∨ (k = level ∧ i ∈ ids)
  | [], exact, exact', h => by
    cases h
    simp
  | id :: ids, exact, exact', h => by
    rw [List.foldlM_cons] at h
    obtain ⟨middle, hset, h⟩ := bind_ok h
    obtain ⟨hlen, hbit⟩ := setLevel_ok hset
    obtain ⟨hlen', hbit'⟩ := setLevels_ok h
    refine ⟨hlen'.trans hlen, fun k i => ?_⟩
    rw [hbit', hbit]
    simp only [Bool.or_eq_true, decide_eq_true_eq, List.mem_cons]
    tauto

/-- The exact levels: each holds the ids of the records of its size. -/
theorem exactLevels_ok (measure : List Byte → Option Nat) :
    ∀ (records : List TokenRecord) (start final : List TokenMask),
    records.foldlM (fun exact r => match levelOf measure r.1 with
      | none => .ok exact
      | some level => r.2.foldlM (setLevel level) exact) start = (.ok final : Except CompileError (List TokenMask)) →
    final.map List.length = start.map List.length ∧
      ∀ k id, bitAt final k id = true ↔ bitAt start k id = true ∨ ∃ r ∈ records, levelOf measure r.1 = some k ∧ id ∈ r.2
  | [], start, final, h => by
    cases h
    simp
  | r :: records, start, final, h => by
    rw [List.foldlM_cons] at h
    obtain ⟨middle, hr, h⟩ := bind_ok h
    obtain ⟨hlen, hbit⟩ := exactLevels_ok measure records middle final h
    cases hlevel : levelOf measure r.1 with
    | none =>
      rw [hlevel] at hr
      cases hr
      refine ⟨hlen, fun k id => ?_⟩
      rw [hbit]
      simp [hlevel]
    | some level =>
      rw [hlevel] at hr
      obtain ⟨hlen', hbit'⟩ := setLevels_ok hr
      refine ⟨hlen.trans hlen', fun k id => ?_⟩
      rw [hbit, hbit', or_assoc]
      simp only [List.mem_cons, exists_eq_or_imp, hlevel, Option.some.injEq, eq_comm (a := level)]

theorem accumulate_bit {n : Nat} : ∀ (rest : List TokenMask) (previous : TokenMask), previous.length = n →
    (∀ mask ∈ rest, mask.length = n) → ∀ k i, bitAt (accumulate previous rest) k i = true ↔
      k < rest.length ∧ (bit previous i = true ∨ ∃ j ≤ k, bitAt rest j i = true)
  | [], previous, _, _, k, i => by simp [accumulate, bitAt]
  | mask :: rest, previous, hp, hrest, k, i => by
    have hmask : mask.length = n := hrest mask List.mem_cons_self
    have hunion : (PackedBits.union mask previous).length = n := by simp [hmask, hp]
    have hbit : ∀ i, bit (PackedBits.union mask previous) i = (bit mask i || bit previous i) :=
      PackedBits.bit_union (hmask.trans hp.symm)
    unfold accumulate
    cases k with
    | zero =>
      show bit (PackedBits.union mask previous) i = true ↔ _
      rw [hbit]
      simp only [Bool.or_eq_true, List.length_cons, Nat.zero_lt_succ, true_and, Nat.le_zero, exists_eq_left]
      exact or_comm
    | succ k =>
      show bitAt (accumulate _ rest) k i = true ↔ _
      rw [accumulate_bit rest _ hunion (fun m hm => hrest m (List.mem_cons_of_mem _ hm)), hbit]
      simp only [Bool.or_eq_true, List.length_cons, Nat.succ_lt_succ_iff]
      refine and_congr_right fun _ => ?_
      constructor
      · rintro ((h | h) | ⟨j, hj, h⟩)
        · exact .inr ⟨0, Nat.zero_le _, h⟩
        · exact .inl h
        · exact .inr ⟨j + 1, Nat.succ_le_succ hj, h⟩
      · rintro (h | ⟨j, hj, h⟩)
        · exact .inl (.inr h)
        · cases j with
          | zero => exact .inl (.inl h)
          | succ j => exact .inr ⟨j, Nat.le_of_succ_le_succ hj, h⟩

theorem levelOf_some {measure : List Byte → Option Nat} {bytes : List Byte} {k : Nat} : levelOf measure bytes = some k ↔
    (safeScalarCount bytes).isSome ∧ measure bytes = some (k + 1) ∧ k < maxBoundedLen := by
  unfold levelOf
  cases safeScalarCount bytes with
  | none => simp
  | some n =>
    cases measure bytes with
    | none => simp
    | some size =>
      simp only [Option.isNone_some, Option.isSome_some, true_and, Option.bind_some, Bool.false_eq_true, if_false,
        Option.some.injEq]
      split
      · constructor
        · intro h
          cases h
        · omega
      · rw [Option.some.injEq]
        omega

/-- **A cumulative level holds the safe tokens up to its size.** -/
theorem cumulativeMasks_ok {measure : List Byte → Option Nat} {levels : List TokenMask}
    (h : cumulativeMasks v measure = .ok levels) {k : Nat} {mask : TokenMask} (hmask : levels[k]? = some mask)
    (id : Nat) :
    k < maxBoundedLen ∧ (bit mask id = true ↔ ∃ r ∈ v.prepared.records, id ∈ r.2 ∧ (safeScalarCount r.1).isSome ∧
      ∃ size, measure r.1 = some size ∧ 1 ≤ size ∧ size ≤ k + 1) := by
  unfold cumulativeMasks at h
  obtain ⟨exact, hexact, h⟩ := bind_ok h
  obtain ⟨hlen, hbit⟩ := exactLevels_ok measure _ _ _ hexact
  have hall : ∀ m ∈ exact, m.length = maskWords v := by
    intro m hm
    have : m.length ∈ exact.map List.length := List.mem_map_of_mem hm
    rw [hlen, List.map_replicate] at this
    simpa using List.eq_of_mem_replicate this
  have hcount : exact.length = maxBoundedLen := by
    have := congrArg List.length hlen
    simpa using this
  have hstart : ∀ j i, bitAt (List.replicate maxBoundedLen (List.replicate (maskWords v) 0)) j i = false := by
    intro j i
    unfold bitAt
    rw [List.getElem?_replicate]
    split <;> simp
  cases exact with
  | nil => cases hcount
  | cons first rest =>
    cases h
    have hlt : k < maxBoundedLen := by
      obtain ⟨hk, -⟩ := List.getElem?_eq_some_iff.1 hmask
      have hacc : ∀ (rest : List TokenMask) (previous : TokenMask), (accumulate previous rest).length =
        rest.length := by
        intro rest
        induction rest with
        | nil => exact fun _ => rfl
        | cons m rest ih => exact fun previous => congrArg Nat.succ (ih _)
      rw [List.length_cons, hacc] at hk
      rw [List.length_cons] at hcount
      omega
    refine ⟨hlt, ?_⟩
    have hupto : bit mask id = true ↔ ∃ j ≤ k, bitAt (first :: rest) j id = true := by
      cases k with
      | zero =>
        cases hmask
        simp [bitAt]
      | succ k =>
        have hat : bit mask id = bitAt (accumulate first rest) k id := by
          unfold bitAt
          rw [List.getElem?_cons_succ] at hmask
          rw [hmask]
          rfl
        rw [hat, accumulate_bit rest first (hall _ List.mem_cons_self) fun m hm => hall m (List.mem_cons_of_mem _ hm)]
        rw [List.length_cons] at hcount
        constructor
        · rintro ⟨-, h | ⟨j, hj, h⟩⟩
          · exact ⟨0, Nat.zero_le _, h⟩
          · exact ⟨j + 1, Nat.succ_le_succ hj, h⟩
        · rintro ⟨j, hj, h⟩
          refine ⟨by omega, ?_⟩
          cases j with
          | zero => exact .inl h
          | succ j => exact .inr ⟨j, Nat.le_of_succ_le_succ hj, h⟩
    rw [hupto]
    simp only [hbit, hstart, Bool.false_eq_true, false_or, levelOf_some]
    constructor
    · rintro ⟨j, hj, r, hr, ⟨hsafe, hsize, -⟩, hid⟩
      exact ⟨r, hr, hid, hsafe, j + 1, hsize, by omega, by omega⟩
    · rintro ⟨r, hr, hid, hsafe, size, hsize, hpos, hle⟩
      refine ⟨size - 1, by omega, r, hr, ⟨hsafe, ?_, by omega⟩, hid⟩
      rw [hsize, Nat.sub_add_cancel hpos]

/-! ## Tries -/

/-- The token is listed where its bytes lead. -/
def VocabTrie.Holds (t : VocabTrie) (bytes : List Byte) (id : Nat) : Prop :=
  ∃ i, Path t.kids 0 (bytes.map CsrBuild.byteKey) i ∧ id ∈ t.leaves i

/-- Some record of the vocabulary has these bytes and this id. -/
def CanonicalVocabulary.Listed (v : CanonicalVocabulary eos) (bytes : List Byte) (id : Nat) : Prop :=
  ∃ r ∈ v.prepared.records, r.1 = bytes ∧ id ∈ r.2

/-- **A filtered trie holds the tokens the filter keeps.** -/
theorem buildByteFiltered_holds {p : PreparedVocabulary eos} {fingerprint : Nat} {keep : List Byte → Bool}
    {t : VocabTrie}
    (h : VocabTrie.buildByteFilteredFromPrepared p fingerprint keep = .ok t) (bytes : List Byte) (id : Nat) :
    t.Holds bytes id ↔ (∃ r ∈ p.records, r.1 = bytes ∧ id ∈ r.2) ∧ keep bytes = true := by
  unfold VocabTrie.buildByteFilteredFromPrepared at h
  obtain ⟨-, -, h⟩ := bind_ok h
  obtain ⟨-, lbl, hspells⟩ := buildByteCsr_spells h
  constructor
  · rintro ⟨i, hpath, hid⟩
    obtain ⟨hlbl, hi⟩ := hpath.label hspells.labelled hspells.labelled.inhabited
    obtain ⟨r, hr, hid, hkeys⟩ := hspells.sound i hi id hid
    rw [hlbl, hspells.labelled.root, List.nil_append] at hkeys
    have hbytes : r.1 = bytes := List.map_injective_iff.2 (fun a b hab => UInt8.toNat_inj.1 hab) hkeys
    obtain ⟨hr, hkeep⟩ := List.mem_filter.1 hr
    exact ⟨⟨r, hr, hbytes, hid⟩, hbytes ▸ hkeep⟩
  · rintro ⟨⟨r, hr, rfl, hid⟩, hkeep⟩
    exact hspells.complete r (List.mem_filter.2 ⟨hr, hkeep⟩) id hid

/-! ## The catalogue -/

theorem le_maxOver {measure : List Byte → Option Nat} {r : TokenRecord} (hr : r ∈ v.prepared.records) {n : Nat}
    (hn : measure r.1 = some n) : n ≤ maxOver v measure := by
  have hmem : n ∈ v.prepared.records.filterMap fun r => measure r.1 := List.mem_filterMap.2 ⟨r, hr, hn⟩
  unfold maxOver
  cases hmax : (v.prepared.records.filterMap fun r => measure r.1).max? with
  | none =>
    rw [List.max?_eq_none_iff.1 hmax] at hmem
    cases hmem
  | some m => exact (List.max?_eq_some_iff.1 hmax).2 n hmem

/-- What a catalogue is built of. -/
structure Built (v : CanonicalVocabulary eos) (c : TokenSliceCatalog) : Prop where
  safeTrie : VocabTrie.buildByteFilteredFromPrepared v.prepared v.fingerprint
    (fun bytes => (safeScalarCount bytes).isSome) =
    .ok c.safe.filteredTrie
  safeMask : safeTokenMask v = .ok c.safe.tokenMask
  extraTrie : VocabTrie.buildByteFilteredFromPrepared v.prepared v.fingerprint bodyExtra = .ok c.bodyExtra.filteredTrie
  uncertain : VocabTrie.buildByteFilteredFromPrepared v.prepared v.fingerprint (fun bytes => !bodyPrefix bytes) =
    .ok c.bodyUncertainTrie
  boundary : VocabTrie.buildByteFilteredFromPrepared v.prepared v.fingerprint
    (fun bytes => bodyClass bytes = .boundary) =
    .ok c.bodyBoundaryTrie
  invalid : VocabTrie.buildByteFilteredFromPrepared v.prepared v.fingerprint (fun bytes => bodyClass bytes = .invalid) =
    .ok c.bodyInvalidTrie
  overflow : VocabTrie.buildByteFilteredFromPrepared v.prepared v.fingerprint
    (fun bytes => (safeScalarCount bytes).any (maxBoundedLen < ·)) = .ok c.scalarOverflowTrie
  byteLevels : cumulativeMasks v (fun bytes => some bytes.length) = .ok c.byteLenLe
  scalarLevels : cumulativeMasks v safeScalarCount = .ok c.scalarLenLe
  maxBytes : c.safe.maxByteLen = maxOver v (lengthWhere fun bytes => (safeScalarCount bytes).isSome)
  maxScalars : c.maxScalarLen = maxOver v safeScalarCount

theorem tryBuild_built {env : SliceEnv} {c : TokenSliceCatalog} (h : TokenSliceCatalog.tryBuild env v = .ok (some c)) :
    Built v c := by
  unfold TokenSliceCatalog.tryBuild TokenSliceCatalog.tryBuildWithBudget at h
  obtain ⟨estimated, -, h⟩ := bind_ok h
  split at h
  · cases h
  obtain ⟨-, -, h⟩ := bind_ok h
  obtain ⟨safeTrie, hsafe, h⟩ := bind_ok h
  obtain ⟨uncertainTrie, -, h⟩ := bind_ok h
  obtain ⟨tokenMask, hmask, h⟩ := bind_ok h
  obtain ⟨bodyExtraTrie, hextra, h⟩ := bind_ok h
  obtain ⟨bodyUncertainTrie, huncertain, h⟩ := bind_ok h
  obtain ⟨bodyExtraMask, -, h⟩ := bind_ok h
  obtain ⟨bodyBoundaryTrie, hboundary, h⟩ := bind_ok h
  obtain ⟨bodyInvalidTrie, hinvalid, h⟩ := bind_ok h
  obtain ⟨scalarOverflowTrie, hoverflow, h⟩ := bind_ok h
  obtain ⟨byteLenLe, hbytes, h⟩ := bind_ok h
  obtain ⟨scalarLenLe, hscalars, h⟩ := bind_ok h
  obtain ⟨retained, -, h⟩ := bind_ok h
  split at h
  · cases h
  cases h
  exact ⟨hsafe, hmask, hextra, huncertain, hboundary, hinvalid, hoverflow, hbytes, hscalars, rfl, rfl⟩

/-! ## Bounded masks -/

/-- What the mask of the bound in characters says of an id. -/
def allows (id : Nat) : Option TokenMask → Bool
  | none => true
  | some scalars => bit scalars id

theorem boundedMask_bit (m : BoundedMask) (id : Nat) : m.bit id = (bit m.bytes id && allows id m.scalars) := by
  unfold BoundedMask.bit BoundedMask.word allows
  cases m.scalars with
  | none => simp [bit]
  | some scalars => simp [bit]

namespace Built

variable {c : TokenSliceCatalog}

/-- A safe token, by the records. -/
theorem holds_safe (h : Built v c) (bytes : List Byte) (id : Nat) :
    c.safe.filteredTrie.Holds bytes id ↔ v.Listed bytes id ∧ ∃ text, Plain bytes text := by
  rw [buildByteFiltered_holds h.safeTrie]
  refine and_congr_right fun _ => ?_
  rw [Option.isSome_iff_exists]
  constructor
  · rintro ⟨n, hn⟩
    obtain ⟨text, hplain, -⟩ := safeScalarCount_some.1 hn
    exact ⟨text, hplain⟩
  · rintro ⟨text, hplain⟩
    exact ⟨_, safeScalarCount_some.2 ⟨text, hplain, rfl⟩⟩

/-- The mask of a bound in bytes. -/
theorem bytes_bit (h : Built v c) {maxBytes : Nat} {mask : TokenMask}
    (hmask : c.boundedBytes maxBytes = some mask) (id : Nat) :
    bit mask id = true ↔ ∃ r ∈ v.prepared.records, id ∈ r.2 ∧ (safeScalarCount r.1).isSome ∧ r.1.length ≤ maxBytes := by
  unfold TokenSliceCatalog.boundedBytes at hmask
  split at hmask
  · rename_i hmax
    cases hmask
    rw [(tokenMaskWhere_ok h.safeMask).2]
    refine exists_congr fun r => and_congr_right fun hr => ?_
    constructor
    · rintro ⟨hsafe, hid⟩
      have hle : r.1.length ≤ maxOver v (lengthWhere fun bytes => (safeScalarCount bytes).isSome) :=
        le_maxOver hr (if_pos hsafe)
      rw [h.maxBytes] at hmax
      exact ⟨hid, hsafe, Nat.le_trans hle hmax⟩
    · rintro ⟨hid, hsafe, -⟩
      exact ⟨hsafe, hid⟩
  split at hmask
  · rename_i hzero
    cases hmask
    rw [PackedBits.bit_nil]
    constructor
    · intro hfalse
      cases hfalse
    · rintro ⟨r, hr, -, -, hle⟩
      have := List.length_pos_of_ne_nil (v.prepared.nonEmptyTokens r hr)
      omega
  · rename_i hzero
    obtain ⟨-, hbit⟩ := cumulativeMasks_ok h.byteLevels hmask id
    rw [hbit]
    refine exists_congr fun r => and_congr_right fun hr => and_congr_right fun _ => and_congr_right fun _ => ?_
    have := List.length_pos_of_ne_nil (v.prepared.nonEmptyTokens r hr)
    constructor
    · rintro ⟨size, heq, -, hle⟩
      cases heq
      omega
    · intro hle
      exact ⟨_, rfl, this, by omega⟩

/-- The mask of a bound in characters; no mask is no bound. -/
theorem scalars_bit (h : Built v c) {limit : Nat} {scalars : Option TokenMask}
    (hscalars : c.boundedScalars (some limit) = some scalars) {r : TokenRecord} (hr : r ∈ v.prepared.records)
    {id n : Nat} (hid : id ∈ r.2) (hn : safeScalarCount r.1 = some n)
    (hunique : ∀ r' ∈ v.prepared.records, id ∈ r'.2 → r'.1 = r.1) :
    allows id scalars = true ↔ n ≤ limit ∧ (maxBoundedLen < limit ∧ limit < c.maxScalarLen → n ≤ maxBoundedLen) := by
  obtain ⟨text, hplain, hlen⟩ := safeScalarCount_some.1 hn
  have hpos : 1 ≤ n := by
    rw [← hlen]
    refine List.length_pos_iff.2 fun hnil => hplain.nonEmpty ?_
    rw [hplain.encodes, hnil]
    rfl
  have hmax : n ≤ c.maxScalarLen := by
    rw [h.maxScalars]
    exact le_maxOver hr hn
  simp only [TokenSliceCatalog.boundedScalars] at hscalars
  split at hscalars
  · cases hscalars
    simp only [allows, true_iff]
    omega
  split at hscalars
  · cases hscalars
    simp only [allows, PackedBits.bit_nil, Bool.false_eq_true, false_iff]
    omega
  · obtain ⟨mask, hmask, rfl⟩ := Option.map_eq_some_iff.1 hscalars
    obtain ⟨-, hbit⟩ := cumulativeMasks_ok h.scalarLevels hmask id
    simp only [allows, hbit]
    constructor
    · rintro ⟨r', hr', hid', -, size, hsize, -, hle⟩
      rw [hunique r' hr' hid', hn] at hsize
      cases hsize
      unfold maxBoundedLen at *
      omega
    · rintro ⟨hle, hover⟩
      refine ⟨r, hr, hid, by rw [hn]; rfl, n, hn, hpos, ?_⟩
      unfold maxBoundedLen at *
      omega

end Built

/-- **The slices partition the vocabulary and bounded masks are exact.**  Each token of the vocabulary is in exactly
one of the safe, the extra and the uncertain trie, the uncertain ones in exactly one of the boundary and the invalid
trie; safe and extra together are the tokens a string body takes whole.  A bounded mask has the safe tokens within its
bounds, and those of more than 32 characters only where nothing is left to walk; else they are in the overflow trie. -/
theorem tokenSliceCatalog_exact (env : SliceEnv) (d : Digests) (p : PreparedVocabulary eos)
    (logitsVocabSize : Option Nat) (v : CanonicalVocabulary eos)
    (hv : CanonicalVocabulary.fromPrepared d p logitsVocabSize = .ok v)
    (c : TokenSliceCatalog) (hc : TokenSliceCatalog.tryBuild env v = .ok (some c)) :
    (∀ bytes id,
      let safe := c.safe.filteredTrie.Holds bytes id
      let extra := c.bodyExtra.filteredTrie.Holds bytes id
      let uncertain := c.bodyUncertainTrie.Holds bytes id
      let boundary := c.bodyBoundaryTrie.Holds bytes id
      let invalid := c.bodyInvalidTrie.Holds bytes id
      (v.Listed bytes id ↔ safe ∨ extra ∨ uncertain) ∧ ¬(safe ∧ extra) ∧ ¬(safe ∧ uncertain) ∧ ¬(extra ∧ uncertain) ∧
        (uncertain ↔ boundary ∨ invalid) ∧ ¬(boundary ∧ invalid) ∧
        (safe ∨ extra ↔ v.Listed bytes id ∧ StaysWithin bytes)) ∧
    ∀ maxBytes maxScalars m, c.boundedMask maxBytes maxScalars = some m →
      (∀ id, m.bit id = true ↔ ∃ bytes text, c.safe.filteredTrie.Holds bytes id ∧ strFromUtf8 bytes = some text ∧
        bytes.length ≤ maxBytes ∧ (∀ limit, maxScalars = some limit → text.length ≤ limit) ∧
        (m.needsOverflowWalk = true → text.length ≤ 32)) ∧
      (m.needsOverflowWalk = true → ∀ bytes text id, c.safe.filteredTrie.Holds bytes id →
        strFromUtf8 bytes = some text → 32 < text.length → m.bit id = false ∧ c.scalarOverflowTrie.Holds bytes id) := by
  have h := tryBuild_built hc
  have hbound := CanonicalVocabulary.fromPrepared_ok hv
  have hunique : ∀ r ∈ v.prepared.records, ∀ r' ∈ v.prepared.records, ∀ id, id ∈ r.2 → id ∈ r'.2 → r'.1 = r.1 := by
    rw [hbound.prepared]
    exact fun r hr r' hr' id hid hid' => CanonicalVocabulary.record_unique hbound hr' hr hid' hid
  refine ⟨fun bytes id => ?_, fun maxBytes maxScalars m hm => ?_⟩
  · have hsafe := buildByteFiltered_holds h.safeTrie bytes id
    have hextra := buildByteFiltered_holds h.extraTrie bytes id
    have huncertain := buildByteFiltered_holds h.uncertain bytes id
    have hboundary := buildByteFiltered_holds h.boundary bytes id
    have hinvalid := buildByteFiltered_holds h.invalid bytes id
    have hwithin := bodyPrefix_iff bytes
    have hplain : (safeScalarCount bytes).isSome → bodyPrefix bytes = true := safe_bodyPrefix
    intro safe extra uncertain boundary invalid
    change safe ↔ v.Listed bytes id ∧ _ at hsafe
    change extra ↔ v.Listed bytes id ∧ _ at hextra
    change uncertain ↔ v.Listed bytes id ∧ _ at huncertain
    change boundary ↔ v.Listed bytes id ∧ _ at hboundary
    change invalid ↔ v.Listed bytes id ∧ _ at hinvalid
    rw [hsafe, hextra, huncertain, hboundary, hinvalid, ← hwithin]
    unfold bodyExtra
    cases hsome : safeScalarCount bytes with
    | some n =>
      -- a safe token is in no other slice
      rw [hsome] at hplain
      have hbody := hplain rfl
      have hclass : bodyClass bytes = .within := by simpa [bodyPrefix] using hbody
      simp [hbody, hclass]
    | none =>
      unfold bodyPrefix
      cases bodyClass bytes <;> simp
  · unfold TokenSliceCatalog.boundedMask at hm
    obtain ⟨bytesMask, hbytes, hm⟩ := Option.bind_eq_some_iff.1 hm
    obtain ⟨scalarsMask, hscalars, rfl⟩ := Option.map_eq_some_iff.1 hm
    have hbit : ∀ id, BoundedMask.bit ⟨bytesMask, scalarsMask, maxScalars.any fun n => maxBoundedLen < n ∧
      n < c.maxScalarLen⟩ id =
        true ↔ ∃ bytes text, c.safe.filteredTrie.Holds bytes id ∧ strFromUtf8 bytes = some text ∧
        bytes.length ≤ maxBytes ∧
          (∀ limit, maxScalars = some limit → text.length ≤ limit ∧
            (maxBoundedLen < limit ∧ limit < c.maxScalarLen → text.length ≤ maxBoundedLen)) := by
      intro id
      -- within the record that lists the id, both masks speak of the same token
      have hrecord : ∀ r ∈ v.prepared.records, id ∈ r.2 → ∀ text, Plain r.1 text →
          (allows id scalarsMask = true ↔ ∀ limit, maxScalars = some limit → text.length ≤ limit ∧
              (maxBoundedLen < limit ∧ limit < c.maxScalarLen → text.length ≤ maxBoundedLen)) := by
        intro r hr hid text hplain
        cases maxScalars with
        | none =>
          cases hscalars
          simp [allows]
        | some limit =>
          rw [h.scalars_bit hscalars hr hid (safeScalarCount_some.2 ⟨text, hplain, rfl⟩)
            fun r' hr' hid' => hunique r hr r' hr' id hid hid']
          simp
      rw [boundedMask_bit, Bool.and_eq_true, h.bytes_bit hbytes]
      constructor
      · rintro ⟨⟨r, hr, hid, hsafe, hle⟩, hmask⟩
        obtain ⟨n, hn⟩ := Option.isSome_iff_exists.1 hsafe
        obtain ⟨text, hplain, -⟩ := safeScalarCount_some.1 hn
        exact ⟨r.1, text, (h.holds_safe r.1 id).2 ⟨⟨r, hr, rfl, hid⟩, text, hplain⟩,
          (strFromUtf8_iff _ _).2 hplain.encodes, hle, (hrecord r hr hid text hplain).1 hmask⟩
      · rintro ⟨bytes, text, hholds, htext, hle, hlimits⟩
        obtain ⟨⟨r, hr, rfl, hid⟩, text', hplain⟩ := (h.holds_safe bytes id).1 hholds
        rw [(strFromUtf8_iff _ _).2 hplain.encodes] at htext
        cases htext
        refine ⟨⟨r, hr, hid, ?_, hle⟩, (hrecord r hr hid text hplain).2 hlimits⟩
        rw [safeScalarCount_some.2 ⟨text, hplain, rfl⟩]
        rfl
    have hover : ∀ text : List Char, (∀ limit, maxScalars = some limit → text.length ≤ limit ∧
        (maxBoundedLen < limit ∧ limit < c.maxScalarLen → text.length ≤ maxBoundedLen)) ↔
        (∀ limit, maxScalars = some limit → text.length ≤ limit) ∧
          ((maxScalars.any fun n => maxBoundedLen < n ∧ n < c.maxScalarLen) = true → text.length ≤ 32) := by
      intro text
      cases maxScalars with
      | none => simp
      | some limit =>
        simp only [Option.some.injEq, forall_eq', Option.any_some, decide_eq_true_eq]
        exact Iff.rfl
    refine ⟨fun id => ?_, fun hwalk bytes text id hholds htext hlong => ⟨?_, ?_⟩⟩
    · rw [hbit]
      simp only [hover]
      rfl
    · refine Bool.eq_false_iff.2 fun hset => ?_
      obtain ⟨bytes', text', hholds', htext', -, hlimits⟩ := (hbit id).1 hset
      obtain ⟨⟨r, hr, rfl, hid⟩, -⟩ := (h.holds_safe bytes id).1 hholds
      obtain ⟨⟨r', hr', rfl, hid'⟩, -⟩ := (h.holds_safe bytes' id).1 hholds'
      rw [hunique r hr r' hr' id hid hid', htext] at htext'
      cases htext'
      exact absurd (((hover text).1 hlimits).2 hwalk) (Nat.not_le.2 hlong)
    · obtain ⟨hlisted, text', hplain⟩ := (h.holds_safe bytes id).1 hholds
      rw [(strFromUtf8_iff _ _).2 hplain.encodes] at htext
      cases htext
      refine (buildByteFiltered_holds h.overflow bytes id).2 ⟨hlisted, ?_⟩
      rw [safeScalarCount_some.2 ⟨text, hplain, rfl⟩]
      exact decide_eq_true hlong

/-- A quote, a letter and a character of two bytes. -/
def sliceSample : PreparedVocabulary 9 where
  records := [([0x22], [1]), ([0x61], [0, 4]), ([0xc3, 0xa9], [2])]
  sorted := by decide
  nonEmptyTokens := by decide
  nonEmptyIds := by decide
  ascendingIds := by decide
  eosFree := by decide

def sliceSampleEnv : SliceEnv := ⟨fun t => t.edgeKey.length, 512, fun _ => .ok ()⟩

/-- Within one byte the letter is all there is; the quote is uncertain. -/
theorem tokenSliceCatalog_exact_sample :
    ∃ v c, CanonicalVocabulary.fromPrepared ⟨fun _ _ => 0, fun _ => 0⟩ sliceSample none = .ok v ∧
    TokenSliceCatalog.tryBuild sliceSampleEnv v = .ok (some c) ∧
    ¬(c.safe.filteredTrie.Holds [0x22] 1 ∧ c.bodyUncertainTrie.Holds [0x22] 1) ∧
    ∀ m, c.boundedMask 1 none = some m → ∀ id, m.bit id = true ↔ ∃ bytes text, c.safe.filteredTrie.Holds bytes id ∧
      strFromUtf8 bytes = some text ∧ bytes.length ≤ 1 ∧ (∀ limit, none = some limit → text.length ≤ limit) ∧
      (m.needsOverflowWalk = true → text.length ≤ 32) := by
  obtain ⟨v, hv⟩ := exists_of_toOption (x := CanonicalVocabulary.fromPrepared
    ⟨fun _ _ => 0, fun _ => 0⟩ sliceSample none)
    (by decide +kernel)
  have hbuilt : ((CanonicalVocabulary.fromPrepared ⟨fun _ _ => 0, fun _ => 0⟩ sliceSample none).toOption.bind
      fun v => (TokenSliceCatalog.tryBuild sliceSampleEnv v).toOption.join).isSome = true := by decide +kernel
  rw [hv] at hbuilt
  cases hc : TokenSliceCatalog.tryBuild sliceSampleEnv v with
  | error e =>
    simp [Except.toOption, hc] at hbuilt
  | ok catalogue =>
    cases catalogue with
    | none => simp [Except.toOption, hc] at hbuilt
    | some c =>
      have h := tokenSliceCatalog_exact sliceSampleEnv ⟨fun _ _ => 0, fun _ => 0⟩ sliceSample none v hv c hc
      exact ⟨v, c, hv, hc, (h.1 [0x22] 1).2.2.1, fun m hm => (h.2 1 none m hm).1⟩

end MaskForge
