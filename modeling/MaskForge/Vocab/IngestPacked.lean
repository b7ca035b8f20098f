import MaskForge.Vocab.IngestTable
/-!
# IngestPacked — what the routes check, and the listing each one reads

A buffer with offsets that pass the check is some rows end to end.  The packed route lists its rows, the dense route its
present slots, the token map its entries; each one that returns leaves the table of that listing, which is sound
(`Leaves`), and each one that refuses has exceeded a cap (`Load.Exceeds`) or met a listing that is not.
-/
namespace MaskForge

open CountingSort (slice start start_length start_succ slice_flatten)
open SortedTable (HasKey Listed Tabulates)

/-! ## What the caps measure -/

/-- What the caps of a route measure: its tokens, the bytes of all keys, the ids, the projected peak and the budget it
is held to, and the width of the mask. -/
structure Load where
  tokens : Nat
  bytes : Nat
  ids : Nat
  peak : Nat
  budget : Nat
  width : Nat

/-- **An error is that of a cap, and what the cap measures is past it.** -/
inductive Load.Exceeds (l : Load) : CompileError → Prop where
  | packedTokens : PreparedArrays.maxPackedTokens < l.tokens →
    l.Exceeds (malformedOffsets "packed token count exceeds the cap")
  | denseTokens : PreparedArrays.maxPackedTokens < l.tokens →
    l.Exceeds (malformedOffsets "dense token count exceeds the cap")
  | packedPeak : l.budget < l.peak →
    l.Exceeds (malformedOffsets "projected peak memory for this packed build exceeds the cap")
  | densePeak : l.budget < l.peak →
    l.Exceeds (malformedOffsets "projected peak memory for this dense build exceeds the cap")
  | packedWidth : maxMaskTokens < l.width → l.Exceeds (overflow "mask width exceeds the token-id cap")
  | packedCount : u32Size ≤ l.tokens → l.Exceeds (overflow "packed token count exceeds the addressable range")
  | byteTotal : usizeMax < l.bytes → l.Exceeds (overflow "prepared vocabulary byte total overflows")
  | idTotal : usizeMax < l.ids → l.Exceeds (overflow "prepared vocabulary id total overflows")
  | blob : u32Size ≤ l.bytes → l.Exceeds blobOverflow
  | ids : u32Size ≤ l.ids → l.Exceeds idsOverflow
  | maskWidth : maxMaskTokens < l.width → l.Exceeds maskWidthExceeded
  | records : u32Size < l.tokens → l.Exceeds recordIndexOverflow

/-- As many ids as a mask needs for some ids and EOS. -/
def idWidth (eos : Nat) (ids : List Nat) : Nat := (ids.max?.map (max · eos)).getD eos + 1

theorem idWidth_le {eos width : Nat} {ids : List Nat} :
    idWidth eos ids ≤ width ↔ eos < width ∧ ∀ id ∈ ids, id < width := by
  unfold idWidth
  cases hmax : ids.max? with
  | none =>
    rw [List.max?_eq_none_iff.1 hmax]
    simp
  | some m =>
    obtain ⟨hmem, hmost⟩ := List.max?_eq_some_iff.1 hmax
    rw [Option.map_some, Option.getD_some]
    constructor
    · intro h
      refine ⟨by omega, fun id hid => ?_⟩
      have := hmost id hid
      omega
    · rintro ⟨heos, hids⟩
      have := hids m hmem
      omega

/-- The width a listing needs or an explicit width asks for, whichever is more. -/
def askedWidth (eos : Nat) (logitsVocabSize : Option Nat) (items : List TokenRecord) : Nat :=
  max (idWidth eos (items.flatMap Prod.snd)) (logitsVocabSize.getD 0)

/-- Listings with the same ids need the same width. -/
theorem idWidth_same {eos : Nat} {items items' : List TokenRecord}
    (h : ∀ k id, Listed items k id ↔ Listed items' k id) :
    idWidth eos (items.flatMap Prod.snd) = idWidth eos (items'.flatMap Prod.snd) := by
  have hmem : ∀ id, id ∈ items.flatMap Prod.snd ↔ id ∈ items'.flatMap Prod.snd := by
    have hlisted : ∀ (rows : List TokenRecord) (id : Nat), id ∈ rows.flatMap Prod.snd ↔ ∃ k, Listed rows k id := by
      intro rows id
      rw [List.mem_flatMap]
      constructor
      · rintro ⟨r, hr, hid⟩
        exact ⟨r.1, r, hr, rfl, hid⟩
      · rintro ⟨_, r, hr, -, hid⟩
        exact ⟨r, hr, hid⟩
    intro id
    rw [hlisted, hlisted]
    exact exists_congr fun k => h k id
  refine Nat.le_antisymm (idWidth_le.2 ?_) (idWidth_le.2 ?_)
  · obtain ⟨heos, hids⟩ := idWidth_le.1 (Nat.le_refl (idWidth eos (items'.flatMap Prod.snd)))
    exact ⟨heos, fun id hid => hids id ((hmem id).1 hid)⟩
  · obtain ⟨heos, hids⟩ := idWidth_le.1 (Nat.le_refl (idWidth eos (items.flatMap Prod.snd)))
    exact ⟨heos, fun id hid => hids id ((hmem id).2 hid)⟩

namespace PreparedArrays

/-! ## Packed rows -/

/-- The offsets of rows packed end to end. -/
def csrOffsets {α : Type} (rows : List (List α)) : List Nat := (List.range (rows.length + 1)).map (start rows)

section Rows

variable {α : Type} {rows : List (List α)}

theorem getElem?_csrOffsets {i : Nat} (h : i ≤ rows.length) : (csrOffsets rows)[i]? = some (start rows i) := by
  rw [csrOffsets, List.getElem?_map, List.getElem?_range (by omega), Option.map_some]

theorem length_csrOffsets : (csrOffsets rows).length = rows.length + 1 := by
  rw [csrOffsets, List.length_map, List.length_range]

theorem rowAt_csrOffsets {i : Nat} {row : List α} (h : rows[i]? = some row) :
    rowAt rows.flatten (csrOffsets rows) i = row := by
  have hi := (List.getElem?_eq_some_iff.1 h).1
  rw [rowAt, getElem?_csrOffsets (Nat.le_of_lt hi), getElem?_csrOffsets hi, Option.getD_some, Option.getD_some]
  exact slice_flatten rows i row h

/-- Two neighbouring offsets are the same where the row between them is empty. -/
theorem csrOffsets_eq_iff {i : Nat} {row : List α} (h : rows[i]? = some row) :
    (csrOffsets rows)[i]?.getD 0 = (csrOffsets rows)[i + 1]?.getD 0 ↔ row = [] := by
  have hi := (List.getElem?_eq_some_iff.1 h).1
  rw [getElem?_csrOffsets (Nat.le_of_lt hi), getElem?_csrOffsets hi, Option.getD_some, Option.getD_some, start_succ h,
    ← List.length_eq_zero_iff]
  omega

theorem validate_csrOffsets (rows : List (List α)) :
    validateCsrOffsets (csrOffsets rows) rows.flatten.length = .ok () := by
  have hhead : (csrOffsets rows).head? = some 0 := by
    rw [List.head?_eq_getElem?, getElem?_csrOffsets (Nat.zero_le _)]
    simp [start]
  have hlast : (csrOffsets rows).getLast? = some rows.flatten.length := by
    rw [List.getLast?_eq_getElem?, length_csrOffsets, Nat.add_sub_cancel, getElem?_csrOffsets (Nat.le_refl _),
      start_length]
  have hup : ((csrOffsets rows).zip (csrOffsets rows).tail).any (fun w => decide (w.2 < w.1)) = false := by
    rw [List.any_eq_false]
    intro w hw
    obtain ⟨i, hi, rfl⟩ := List.mem_iff_getElem.1 hw
    have hi : i < rows.length := by
      rw [List.length_zip, List.length_tail, length_csrOffsets] at hi
      omega
    obtain ⟨row, hrow⟩ : ∃ row, rows[i]? = some row := ⟨_, List.getElem?_eq_getElem hi⟩
    have hstep := start_succ hrow
    simp only [List.getElem_zip, List.getElem_tail, csrOffsets, List.getElem_map, List.getElem_range, decide_eq_true_eq]
    omega
  unfold validateCsrOffsets
  rw [hhead, hlast]
  simp [hup]

/-- What `validate_csr_offsets` checks. -/
structure CsrOffsets (offsets : List Nat) (len : Nat) : Prop where
  nonempty : offsets ≠ []
  first : offsets[0]?.getD 0 = 0
  step : ∀ i, i + 1 < offsets.length → offsets[i]?.getD 0 ≤ offsets[i + 1]?.getD 0
  last : offsets[offsets.length - 1]?.getD 0 = len

theorem validateCsrOffsets_ok {offsets : List Nat} {len : Nat} (h : validateCsrOffsets offsets len = .ok ()) :
    CsrOffsets offsets len := by
  unfold validateCsrOffsets at h
  split at h
  · rename_i first last hhead hlast
    split at h
    · cases h
    rename_i hfirst
    split at h
    · cases h
    rename_i hup
    split at h
    · cases h
    rename_i hend
    have hat : ∀ i, i < offsets.length → offsets[i]? = some (offsets[i]?.getD 0) := by
      intro i hi
      rw [List.getElem?_eq_getElem hi]
      rfl
    refine ⟨fun hnil => by simp [hnil] at hhead, ?_, fun i hi => ?_, ?_⟩
    · rw [← List.head?_eq_getElem?, hhead]
      simpa using hfirst
    · by_contra hlt
      refine hup (List.any_eq_true.2 ⟨(offsets[i]?.getD 0, offsets[i + 1]?.getD 0), ?_,
        decide_eq_true (Nat.lt_of_not_le hlt)⟩)
      refine List.mem_iff_getElem?.2 ⟨i, List.getElem?_zip_eq_some.2 ⟨hat i (Nat.lt_of_succ_lt hi), ?_⟩⟩
      rw [List.getElem?_tail]
      exact hat (i + 1) hi
    · rw [← List.getLast?_eq_getElem?, hlast]
      simpa using hend
  · cases h

theorem CsrOffsets.le {offsets : List Nat} {len : Nat} (h : CsrOffsets offsets len) {i : Nat}
    (hi : i < offsets.length) :
    offsets[i]?.getD 0 ≤ len := by
  rw [← h.last]
  have hle : i ≤ offsets.length - 1 := by omega
  induction hle using Nat.decreasingInduction with
  | self => exact Nat.le_refl _
  | of_succ k hk ih => exact Nat.le_trans (h.step k (by omega)) (ih (by omega))

/-- **Offsets that pass the check are those of some rows**, and the buffer is the rows end to end. -/
theorem CsrOffsets.packs {buffer : List α} {offsets : List Nat} (h : CsrOffsets offsets buffer.length) :
    ∃ rows : List (List α), buffer = rows.flatten ∧ offsets = csrOffsets rows ∧ rows.length + 1 = offsets.length := by
  obtain ⟨n, hn⟩ : ∃ n, offsets.length = n + 1 := ⟨offsets.length - 1, by
    have := List.length_pos_iff.2 h.nonempty; omega⟩
  refine ⟨(List.range n).map (rowAt buffer offsets), ?_, ?_, by simp [hn]⟩
  · have htake : ∀ i, i ≤ n → buffer.take (offsets[i]?.getD 0) =
      ((List.range i).map (rowAt buffer offsets)).flatten := by
      intro i
      induction i with
      | zero => simp [h.first]
      | succ i ih =>
        intro hi
        rw [List.range_succ, List.map_append, List.flatten_append, ← ih (by omega), List.map_singleton,
          List.flatten_singleton]
        unfold rowAt slice
        rw [← List.take_add, Nat.add_sub_cancel' (h.step i (by omega))]
    have hlast := h.last
    rw [hn, Nat.add_sub_cancel] at hlast
    rw [← htake n (Nat.le_refl n), hlast, List.take_length]
  · have hstart : ∀ i, i ≤ n → start ((List.range n).map (rowAt buffer offsets)) i = offsets[i]?.getD 0 := by
      intro i
      induction i with
      | zero => simp [start, h.first]
      | succ i ih =>
        intro hi
        have hrow : ((List.range n).map (rowAt buffer offsets))[i]? = some (rowAt buffer offsets i) := by
          rw [List.getElem?_map, List.getElem?_range (by omega)]
          rfl
        have hs := h.step i (by omega)
        have hb := h.le (i := i + 1) (by omega)
        rw [start_succ hrow, ih (by omega)]
        unfold rowAt slice
        rw [List.length_take, List.length_drop]
        omega
    apply List.ext_getElem?
    intro i
    rcases Nat.lt_or_ge n i with hi | hi
    · rw [List.getElem?_eq_none (by omega), List.getElem?_eq_none (by rw [length_csrOffsets]; simpa using hi)]
    · rw [getElem?_csrOffsets (by simpa using hi), hstart i hi, List.getElem?_eq_getElem (by omega)]
      rfl

end Rows

/-- What the routes ask of the items before the ids are indexed. -/
structure Sound (eos : Nat) (items : List TokenRecord) : Prop where
  tokens : ∀ k, HasKey items k → k ≠ []
  grouped : ∀ k, HasKey items k → ∃ id, Listed items k id
  eosFree : ∀ k, ¬Listed items k eos

/-- What a route leaves: the table of sound items, each record with an id or more. -/
structure Leaves (eos : Nat) (items : List TokenRecord) (a : PreparedArrays) : Prop where
  table : Tabulates a.iter items
  sound : Sound eos items

/-- Listings that list the same are sound together. -/
theorem Sound.same {eos : Nat} {items items' : List TokenRecord} (h : Sound eos items)
    (hkeys : ∀ k, HasKey items k ↔ HasKey items' k) (hlists : ∀ k id, Listed items k id ↔ Listed items' k id) :
    Sound eos items' where
  tokens := fun k hk => h.tokens k ((hkeys k).2 hk)
  grouped := by
    intro k hk
    obtain ⟨id, hid⟩ := h.grouped k ((hkeys k).2 hk)
    exact ⟨id, (hlists k id).1 hid⟩
  eosFree := fun k hk => h.eosFree k ((hlists k eos).2 hk)

theorem Leaves.same {eos : Nat} {items items' : List TokenRecord} {a : PreparedArrays} (h : Leaves eos items a)
    (hkeys : ∀ k, HasKey items k ↔ HasKey items' k) (hlists : ∀ k id, Listed items k id ↔ Listed items' k id) :
    Leaves eos items' a where
  table := ⟨h.table.sorted, h.table.ascending, fun k => (h.table.keys k).trans (hkeys k),
    fun k id => (h.table.lists k id).trans (hlists k id)⟩
  sound := h.sound.same hkeys hlists

/-- How the routes over arrays run: the first check that fails, or the loop over the sorted keys of the items. -/
inductive Checked (eos : Nat) (load : Load) (items : List TokenRecord) : Except CompileError PreparedArrays → Prop where
  | cap {err : CompileError} : load.Exceeds err → Checked eos load items (.error err)
  | token {err : CompileError} {it : TokenRecord} : it ∈ items → it.1 = [] → Checked eos load items (.error err)
  | eosUsed {err : CompileError} {it : TokenRecord} : it ∈ items → eos ∈ it.2 → Checked eos load items (.error err)
  | loop {key : Nat → List Byte} {idsOf : Nat → List Nat} {groupIds : List Nat → Except CompileError (List Nat)}
      {order : List PackedSortKey} : (∀ it ∈ items, it.1 ≠ []) → (∀ it ∈ items, eos ∉ it.2) → Merges groupIds idsOf →
    (order.Pairwise fun a b => ¬key b.index < key a.index) → (∀ it, it ∈ order.map (entryOf key idsOf) ↔ it ∈ items) →
    keyTotal (order.map (entryOf key idsOf)) < u32Size → idTotal (order.map (entryOf key idsOf)) < u32Size →
    Checked eos load items (groupLoop key groupIds order.length order empty)

section Checked

variable {eos : Nat} {load : Load} {items : List TokenRecord} {r : Except CompileError PreparedArrays}

/-- Two listings with the same rows list the same. -/
theorem same_of_mem {rows rows' : List TokenRecord} (h : ∀ r, r ∈ rows ↔ r ∈ rows') :
    (∀ k, HasKey rows k ↔ HasKey rows' k) ∧ ∀ k id, Listed rows k id ↔ Listed rows' k id := by
  unfold HasKey Listed
  simp only [h, implies_true, and_self]

/-- **A route that returns leaves the table of its items**, and they are sound. -/
theorem Checked.leaves (hr : Checked eos load items r) {a : PreparedArrays} (h : r = .ok a) : Leaves eos items a := by
  cases hr with
  | cap hcap => cases h
  | token hit hnil => cases h
  | eosUsed hit hid => cases h
  | loop hne heos hmerges hsort hmem hbytes hcount =>
    obtain ⟨hkeys, hlists⟩ := same_of_mem hmem
    obtain ⟨table, hiter, htable, hids⟩ := groupLoop_ok hmerges _ _ (Nat.le_refl _) inRange_empty hsort h
    have hiter : a.iter = table := hiter
    have hitems : Tabulates a.iter items := by
      rw [hiter]
      exact ⟨htable.sorted, htable.ascending, fun k => (htable.keys k).trans (hkeys k),
        fun k id => (htable.lists k id).trans (hlists k id)⟩
    refine ⟨hitems, ?_, ?_, ?_⟩
    · rintro k ⟨it, hit, rfl⟩
      exact hne it hit
    · intro k hk
      obtain ⟨row, hrow, rfl⟩ := (hitems.keys k).2 hk
      obtain ⟨id, hid⟩ := List.exists_mem_of_ne_nil _ (hids row (hiter ▸ hrow))
      exact ⟨id, (hitems.lists row.1 id).1 ⟨row, hrow, rfl, hid⟩⟩
    · rintro k ⟨it, hit, -, hid⟩
      exact heos it hit hid

/-- **What a route refuses is past a cap, or not sound.** -/
theorem Checked.refuses (hr : Checked eos load items r) {err : CompileError} (h : r = .error err) :
    load.Exceeds err ∨ ¬Sound eos items := by
  cases hr with
  | cap hcap =>
    cases h
    exact .inl hcap
  | token hit hnil => exact .inr fun hs => hs.tokens _ ⟨_, hit, rfl⟩ hnil
  | eosUsed hit hid => exact .inr fun hs => hs.eosFree _ ⟨_, hit, rfl, hid⟩
  | loop hne heos hmerges hsort hmem hbytes hcount =>
    rcases groupLoop_error hmerges _ _ (Nat.le_refl _) hsort h with hrange | ⟨k, hk, hnone⟩
    · simp only [empty, List.length_nil] at hrange
      omega
    · obtain ⟨hkeys, hlists⟩ := same_of_mem hmem
      refine .inr fun hs => ?_
      obtain ⟨id, hid⟩ := hs.grouped k ((hkeys k).1 hk)
      exact hnone id ((hlists k id).2 hid)

end Checked

/-- Totals past the addressable range exceed their caps. -/
theorem exceeds_totals (load : Load) {err : CompileError}
    (h : checkAddressableTotals load.bytes load.ids = .error err) :
    load.Exceeds err := by
  rcases checkAddressableTotals_error h with ⟨rfl, hpast⟩ | ⟨rfl, hpast⟩
  · exact .blob hpast
  · exact .ids hpast

theorem sortOrder_entries {key : Nat → List Byte} (idsOf : Nat → List Nat) (indices : List Nat) :
    ((sortOrder key indices).map (entryOf key idsOf)).Perm (indices.map fun i => (key i, idsOf i)) := by
  have h := (@sortOrder_perm key indices).map fun i => (key i, idsOf i)
  rwa [List.map_map] at h

/-! ## Packed items -/

theorem packed_entries (items : List TokenRecord) : (List.range items.length).map (fun i =>
    (rowAt (items.map Prod.fst).flatten (csrOffsets (items.map Prod.fst)) i,
      rowAt (items.map Prod.snd).flatten (csrOffsets (items.map Prod.snd)) i)) = items := by
  apply List.ext_getElem?
  intro i
  rw [List.getElem?_map]
  rcases Nat.lt_or_ge i items.length with hi | hi
  · rw [List.getElem?_range hi, Option.map_some, List.getElem?_eq_getElem hi,
      @rowAt_csrOffsets _ _ _ items[i].1 (by rw [List.getElem?_map, List.getElem?_eq_getElem hi]; rfl),
      @rowAt_csrOffsets _ _ _ items[i].2 (by rw [List.getElem?_map, List.getElem?_eq_getElem hi]; rfl)]
  · rw [List.getElem?_eq_none (by simpa using hi), List.getElem?_eq_none hi]
    rfl

section Packed

/-- The packed route on the packing of some items. -/
def packedItems (eos budget : Nat) (items : List TokenRecord) : Except CompileError PreparedArrays :=
  buildFromPackedBudgeted (items.map Prod.fst).flatten (csrOffsets (items.map Prod.fst)) (items.map Prod.snd).flatten
    (csrOffsets (items.map Prod.snd)) eos budget

/-- What the caps measure of packed items. -/
def packedLoad (eos budget : Nat) (logitsVocabSize : Option Nat) (items : List TokenRecord) : Load where
  tokens := items.length
  bytes := keyTotal items
  ids := idTotal items
  peak := projectedPeakBytes (keyTotal items) (idTotal items) items.length
  budget := budget
  width := askedWidth eos logitsVocabSize items

theorem length_keys (items : List TokenRecord) : (items.map Prod.fst).flatten.length = keyTotal items := by
  rw [List.length_flatten, List.map_map]
  rfl

theorem length_lists (items : List TokenRecord) : (items.map Prod.snd).flatten.length = idTotal items := by
  rw [List.length_flatten, List.map_map]
  rfl

theorem packedItems_checked (eos budget : Nat) (logitsVocabSize : Option Nat) (items : List TokenRecord) :
    Checked eos (packedLoad eos budget logitsVocabSize items) items (packedItems eos budget items) := by
  have hempty : (List.range items.length).any (fun i => decide ((csrOffsets (items.map Prod.fst))[i]?.getD 0 =
      (csrOffsets (items.map Prod.fst))[i + 1]?.getD 0)) = true ↔ ∃ it ∈ items, it.1 = [] := by
    rw [List.any_eq_true]
    constructor
    · rintro ⟨i, hi, heq⟩
      have hi := List.mem_range.1 hi
      refine ⟨items[i], List.getElem_mem hi, ?_⟩
      refine (csrOffsets_eq_iff ?_).1 (of_decide_eq_true heq)
      rw [List.getElem?_map, List.getElem?_eq_getElem hi]
      rfl
    · rintro ⟨it, hit, hnil⟩
      obtain ⟨i, hi, rfl⟩ := List.mem_iff_getElem.1 hit
      refine ⟨i, List.mem_range.2 hi, decide_eq_true ((csrOffsets_eq_iff ?_).2 hnil)⟩
      rw [List.getElem?_map, List.getElem?_eq_getElem hi]
      rfl
  have heos : (items.map Prod.snd).flatten.contains eos = true ↔ ∃ it ∈ items, eos ∈ it.2 := by
    rw [List.contains_iff_mem, List.mem_flatten]
    simp only [List.mem_map, exists_exists_and_eq_and]
  unfold packedItems buildFromPackedBudgeted
  rw [length_csrOffsets, length_csrOffsets, List.length_map, List.length_map, if_neg (by simp), validate_csrOffsets,
    validate_csrOffsets, length_keys, length_lists]
  simp only [bind, Except.bind, Nat.add_sub_cancel]
  split
  · rename_i hpast
    exact .cap (.packedTokens hpast)
  split
  · rename_i hpast
    exact .cap (.packedPeak hpast)
  split
  · rename_i h
    obtain ⟨it, hit, hnil⟩ := hempty.1 h
    exact .token hit hnil
  rename_i hne
  split
  · rename_i h
    obtain ⟨it, hit, hid⟩ := heos.1 h
    exact .eosUsed hit hid
  rename_i hfree
  split
  · rename_i hpast
    refine .cap (.packedWidth (Nat.lt_of_lt_of_le hpast (Nat.le_trans ?_ (Nat.le_max_left _ _))))
    rw [List.flatMap_def]
    exact Nat.le_refl _
  cases hcount : checkedU32 (overflow "packed token count exceeds the addressable range") items.length with
  | error err =>
    have hpast := checkedU32_error_le hcount
    rw [checkedU32_error hcount]
    exact .cap (.packedCount hpast)
  | ok count =>
    obtain ⟨rfl, -⟩ := checkedU32_ok hcount
    cases htotals : checkAddressableTotals (keyTotal items) (idTotal items) with
    | error err => exact .cap (exceeds_totals (packedLoad eos budget logitsVocabSize items) htotals)
    | ok totals =>
      have hperm := @sortOrder_entries (rowAt (items.map Prod.fst).flatten (csrOffsets (items.map Prod.fst)))
        (rowAt (items.map Prod.snd).flatten (csrOffsets (items.map Prod.snd))) (List.range items.length)
      rw [packed_entries] at hperm
      obtain ⟨hbytes, hids⟩ := totals_perm hperm
      obtain ⟨hb, hi⟩ := checkAddressableTotals_ok htotals
      refine .loop (fun it hit hnil => hne (hempty.2 ⟨it, hit, hnil⟩)) (fun it hit hid => hfree (heos.2 ⟨it, hit, hid⟩))
        (packed_merges _) (sortOrder_sorted _) (fun it => hperm.mem_iff) (hbytes ▸ hb) (hids ▸ hi)

/-- **Packed buffers that are taken are the packing of some items**, sound ones, and their table is what they leave. -/
theorem buildFromPacked_leaves {tokenBytes : List Byte} {byteOffsets tokenIds idOffsets : List Nat} {eos budget : Nat}
    {a : PreparedArrays} (h : buildFromPackedBudgeted tokenBytes byteOffsets tokenIds idOffsets eos budget = .ok a) :
    ∃ items, packedItems eos budget items = .ok a ∧ Leaves eos items a := by
  have hpacked : ∃ items : List TokenRecord, tokenBytes = (items.map Prod.fst).flatten ∧
      byteOffsets = csrOffsets (items.map Prod.fst) ∧ tokenIds = (items.map Prod.snd).flatten ∧
      idOffsets = csrOffsets (items.map Prod.snd) := by
    unfold buildFromPackedBudgeted at h
    split at h
    · cases h
    rename_i hlen
    obtain ⟨_, hbytes, h⟩ := bind_ok h
    obtain ⟨_, hids, -⟩ := bind_ok h
    obtain ⟨tokens, hflat, hoff, hn⟩ := (validateCsrOffsets_ok hbytes).packs
    obtain ⟨lists, hflat', hoff', hn'⟩ := (validateCsrOffsets_ok hids).packs
    have hsame : tokens.length = lists.length := by omega
    refine ⟨tokens.zip lists, ?_⟩
    rw [List.map_fst_zip (Nat.le_of_eq hsame), List.map_snd_zip (Nat.le_of_eq hsame.symm)]
    exact ⟨hflat, hoff, hflat', hoff'⟩
  obtain ⟨items, rfl, rfl, rfl, rfl⟩ := hpacked
  exact ⟨items, h, (packedItems_checked eos budget none items).leaves h⟩

end Packed

/-! ## A dense decode -/

/-- What the slots of a dense decode list: each present slot its own index, under its bytes. -/
def slotItems (slots : List (List Byte × Bool)) : List TokenRecord :=
  (slots.zipIdx.filter fun s => s.1.2).map fun s => (s.1.1, [s.2])

/-- The dense route on the packing of some slots. -/
def denseSlots (eos budget : Nat) (slots : List (List Byte × Bool)) : Except CompileError PreparedArrays :=
  buildFromDenseIdOrderedBudgeted (slots.map Prod.fst).flatten (csrOffsets (slots.map Prod.fst))
    (slots.map Prod.snd) eos budget

/-- What the caps measure of a dense decode: all its bytes, and the slots that are there. -/
def denseLoad (eos budget : Nat) (logitsVocabSize : Option Nat) (slots : List (List Byte × Bool)) : Load where
  tokens := slots.length
  bytes := (slots.map Prod.fst).flatten.length
  ids := (slots.map Prod.snd).count true
  peak := projectedPeakBytes (slots.map Prod.fst).flatten.length ((slots.map Prod.snd).count true)
    ((slots.map Prod.snd).count true)
  budget := budget
  width := askedWidth eos logitsVocabSize (slotItems slots)

section Dense

variable {slots : List (List Byte × Bool)}

theorem mem_slotItems {it : TokenRecord} : it ∈ slotItems slots ↔ ∃ i, slots[i]? = some (it.1, true) ∧ it.2 = [i] := by
  unfold slotItems
  simp only [List.mem_map, List.mem_filter]
  constructor
  · rintro ⟨⟨⟨bytes, here⟩, i⟩, ⟨hmem, hhere⟩, rfl⟩
    rw [List.mem_zipIdx_iff_getElem?] at hmem
    have hhere : here = true := hhere
    rw [hhere] at hmem
    exact ⟨i, hmem, rfl⟩
  · rintro ⟨i, hi, hids⟩
    refine ⟨((it.1, true), i), ⟨List.mem_zipIdx_iff_getElem?.2 hi, rfl⟩, ?_⟩
    rw [← hids]

/-- The slots that are there, as the loop reads them. -/
theorem dense_entries (slots : List (List Byte × Bool)) : ∀ it : TokenRecord,
    it ∈ ((List.range slots.length).filter fun i => (slots.map Prod.snd)[i]?.getD false).map (fun i =>
      (rowAt (slots.map Prod.fst).flatten (csrOffsets (slots.map Prod.fst)) i, [i])) ↔ it ∈ slotItems slots := by
  intro it
  rw [mem_slotItems]
  simp only [List.mem_map, List.mem_filter, List.mem_range]
  have hrow : ∀ {i : Nat} {s : List Byte × Bool}, slots[i]? = some s →
      rowAt (slots.map Prod.fst).flatten (csrOffsets (slots.map Prod.fst)) i = s.1 := by
    intro i s hs
    refine rowAt_csrOffsets ?_
    rw [List.getElem?_map, hs]
    rfl
  constructor
  · rintro ⟨i, ⟨hi, hhere⟩, rfl⟩
    have hs := List.getElem?_eq_getElem hi
    rw [List.getElem?_map, hs] at hhere
    have hhere : slots[i].2 = true := hhere
    refine ⟨i, ?_, rfl⟩
    rw [hs, hrow hs, ← hhere]
  · rintro ⟨i, hi, hids⟩
    refine ⟨i, ⟨(List.getElem?_eq_some_iff.1 hi).1, by rw [List.getElem?_map, hi]; rfl⟩, ?_⟩
    rw [hrow hi, ← hids]

theorem length_present (present : List Bool) :
    ((List.range present.length).filter fun i => present[i]?.getD false).length = present.count true := by
  have hall : (List.range present.length).map (fun i => present[i]?.getD false) = present := by
    apply List.ext_getElem
    · simp
    · intro i hi hi'
      simp [hi']
  conv => rhs; rw [← hall]
  rw [← List.countP_eq_length_filter, List.count, List.countP_map]
  exact List.countP_congr fun i _ => by simp

/-- The slots that are there have no more bytes than all of them. -/
theorem dense_totals (slots : List (List Byte × Bool)) (entries : List TokenRecord)
    (h : entries.Perm (((List.range slots.length).filter fun i => (slots.map Prod.snd)[i]?.getD false).map fun i =>
      (rowAt (slots.map Prod.fst).flatten (csrOffsets (slots.map Prod.fst)) i, [i]))) :
    keyTotal entries ≤ (slots.map Prod.fst).flatten.length ∧ idTotal entries = (slots.map Prod.snd).count true := by
  obtain ⟨hbytes, hids⟩ := totals_perm h
  have hrows : (List.range slots.length).map (rowAt (slots.map Prod.fst).flatten (csrOffsets (slots.map Prod.fst))) =
      slots.map Prod.fst := by
    apply List.ext_getElem
    · simp
    · intro i hi hi'
      rw [List.getElem_map, List.getElem_range]
      exact rowAt_csrOffsets (List.getElem?_eq_getElem hi')
  constructor
  · rw [hbytes, keyTotal, List.map_map, List.length_flatten]
    conv => rhs; rw [← hrows]
    rw [List.map_map]
    exact (List.filter_sublist.map _).sum_le_sum fun _ _ => Nat.zero_le _
  · have hlen := length_present (slots.map Prod.snd)
    rw [List.length_map] at hlen
    rw [hids, ← hlen, idTotal, List.map_map]
    simp [Function.comp_def]

theorem denseSlots_checked (eos budget : Nat) (logitsVocabSize : Option Nat) (slots : List (List Byte × Bool)) :
    Checked eos (denseLoad eos budget logitsVocabSize slots) (slotItems slots) (denseSlots eos budget slots) := by
  have hempty : (List.range slots.length).any (fun i => (slots.map Prod.snd)[i]?.getD false &&
      decide ((csrOffsets (slots.map Prod.fst))[i]?.getD 0 = (csrOffsets (slots.map Prod.fst))[i + 1]?.getD 0)) = true ↔
      ∃ it ∈ slotItems slots, it.1 = [] := by
    rw [List.any_eq_true]
    constructor
    · rintro ⟨i, hi, h⟩
      have hi := List.mem_range.1 hi
      have hs := List.getElem?_eq_getElem hi
      obtain ⟨hhere, heq⟩ := (Bool.and_eq_true _ _).mp h
      rw [List.getElem?_map, hs] at hhere
      have hhere : slots[i].2 = true := hhere
      refine ⟨(slots[i].1, [i]), mem_slotItems.2 ⟨i, by rw [hs, ← hhere], rfl⟩, ?_⟩
      refine (csrOffsets_eq_iff ?_).1 (of_decide_eq_true heq)
      rw [List.getElem?_map, hs]
      rfl
    · rintro ⟨it, hit, hnil⟩
      obtain ⟨i, hi, -⟩ := mem_slotItems.1 hit
      refine ⟨i, List.mem_range.2 (List.getElem?_eq_some_iff.1 hi).1, ?_⟩
      rw [List.getElem?_map, hi]
      refine decide_eq_true ((csrOffsets_eq_iff ?_).2 hnil)
      rw [List.getElem?_map, hi]
      rfl
  have heos : (slots.map Prod.snd)[eos]?.getD false = true ↔ ∃ it ∈ slotItems slots, eos ∈ it.2 := by
    constructor
    · intro h
      rw [List.getElem?_map] at h
      cases hs : slots[eos]? with
      | none =>
        rw [hs] at h
        cases h
      | some s =>
        rw [hs] at h
        have hhere : s.2 = true := h
        exact ⟨(s.1, [eos]), mem_slotItems.2 ⟨eos, by rw [hs, ← hhere], rfl⟩, List.mem_singleton_self _⟩
    · rintro ⟨it, hit, hid⟩
      obtain ⟨i, hi, hids⟩ := mem_slotItems.1 hit
      rw [hids, List.mem_singleton] at hid
      rw [List.getElem?_map, hid, hi]
      rfl
  unfold denseSlots buildFromDenseIdOrderedBudgeted
  rw [length_csrOffsets, List.length_map, List.length_map, if_neg (by simp), validate_csrOffsets]
  simp only [bind, Except.bind]
  split
  · rename_i hpast
    exact .cap (.denseTokens hpast)
  split
  · rename_i hpast
    exact .cap (.densePeak hpast)
  split
  · rename_i h
    obtain ⟨it, hit, hnil⟩ := hempty.1 h
    exact .token hit hnil
  rename_i hne
  split
  · rename_i h
    obtain ⟨it, hit, hid⟩ := heos.1 h
    exact .eosUsed hit hid
  rename_i hfree
  cases htotals : checkAddressableTotals (slots.map Prod.fst).flatten.length ((slots.map Prod.snd).count true) with
  | error err => exact .cap (exceeds_totals (denseLoad eos budget logitsVocabSize slots) htotals)
  | ok totals =>
    have hperm := @sortOrder_entries (rowAt (slots.map Prod.fst).flatten (csrOffsets (slots.map Prod.fst)))
      (fun i => [i]) ((List.range slots.length).filter fun i => (slots.map Prod.snd)[i]?.getD false)
    obtain ⟨hbytes, hids⟩ := dense_totals slots _ hperm
    obtain ⟨hb, hi⟩ := checkAddressableTotals_ok htotals
    refine .loop (fun it hit hnil => hne (hempty.2 ⟨it, hit, hnil⟩)) (fun it hit hid => hfree (heos.2 ⟨it, hit, hid⟩))
      dense_merges (sortOrder_sorted _) (fun it => ?_) (Nat.lt_of_le_of_lt hbytes hb) (hids ▸ hi)
    rw [hperm.mem_iff]
    exact dense_entries slots it

/-- **A dense decode that is taken is the packing of some slots**, sound ones, and their table is what they leave. -/
theorem buildFromDense_leaves {tokenBytes : List Byte} {byteOffsets : List Nat} {present : List Bool} {eos budget : Nat}
    {a : PreparedArrays} (h : buildFromDenseIdOrderedBudgeted tokenBytes byteOffsets present eos budget = .ok a) :
    ∃ slots, denseSlots eos budget slots = .ok a ∧ Leaves eos (slotItems slots) a := by
  have hpacked : ∃ slots : List (List Byte × Bool), tokenBytes = (slots.map Prod.fst).flatten ∧
      byteOffsets = csrOffsets (slots.map Prod.fst) ∧ present = slots.map Prod.snd := by
    unfold buildFromDenseIdOrderedBudgeted at h
    split at h
    · cases h
    rename_i hlen
    obtain ⟨_, hbytes, -⟩ := bind_ok h
    obtain ⟨tokens, hflat, hoff, hn⟩ := (validateCsrOffsets_ok hbytes).packs
    have hsame : tokens.length = present.length := by omega
    refine ⟨tokens.zip present, ?_⟩
    rw [List.map_fst_zip (Nat.le_of_eq hsame), List.map_snd_zip (Nat.le_of_eq hsame.symm)]
    exact ⟨hflat, hoff, rfl⟩
  obtain ⟨slots, rfl, rfl, rfl⟩ := hpacked
  exact ⟨slots, h, (denseSlots_checked eos budget none slots).leaves h⟩

end Dense

/-! ## A token map -/

section Map

variable {eos : Nat} {tokens : TokenMap} {vocab : Vocabulary}

theorem dedup_same (tokens : TokenMap) : (∀ k, HasKey (tokens.mapValues dedupIds).entries k ↔ HasKey tokens.entries k) ∧
    ∀ k id, Listed (tokens.mapValues dedupIds).entries k id ↔ Listed tokens.entries k id := by
  unfold TokenMap.mapValues HasKey Listed
  simp only [List.mem_map, exists_exists_and_eq_and, (dedupIds_spec _).2, implies_true, and_self]

theorem buildVocabulary_ok (h : buildVocabulary eos tokens = .ok vocab) :
    vocab.tokens = tokens.mapValues dedupIds ∧ Sound eos tokens.entries := by
  unfold buildVocabulary fromRawBytesMap at h
  split at h
  · cases h
  rename_i hempty
  split at h
  · cases h
  rename_i hids
  split at h
  · cases h
  rename_i heos
  cases h
  refine ⟨rfl, ?_, ?_, ?_⟩
  · rintro k ⟨t, ht, rfl⟩ hnil
    exact hempty (List.any_eq_true.2 ⟨t, ht, by rw [hnil]; rfl⟩)
  · rintro k ⟨t, ht, rfl⟩
    have hne : t.2 ≠ [] := fun hnil => hids (List.any_eq_true.2 ⟨t, ht, by rw [hnil]; rfl⟩)
    obtain ⟨id, hid⟩ := List.exists_mem_of_ne_nil _ hne
    exact ⟨id, t, ht, rfl, hid⟩
  · rintro k ⟨t, ht, -, hid⟩
    exact heos (List.any_eq_true.2 ⟨t, ht, List.contains_iff_mem.2 hid⟩)

theorem buildVocabulary_error {err : VocabError} (h : buildVocabulary eos tokens = .error err) :
    ¬Sound eos tokens.entries := by
  intro hs
  unfold buildVocabulary fromRawBytesMap at h
  split at h
  · rename_i hempty
    obtain ⟨t, ht, hnil⟩ := List.any_eq_true.1 hempty
    exact hs.tokens t.1 ⟨t, ht, rfl⟩ (List.isEmpty_iff.1 hnil)
  split at h
  · rename_i hids
    obtain ⟨t, ht, hnil⟩ := List.any_eq_true.1 hids
    obtain ⟨id, t', ht', hkey, hid⟩ := hs.grouped t.1 ⟨t, ht, rfl⟩
    -- a key of the map has one entry
    rw [List.inj_on_of_nodup_map tokens.keys ht' ht hkey, List.isEmpty_iff.1 hnil] at hid
    cases hid
  split at h
  · rename_i heos
    obtain ⟨t, ht, hid⟩ := List.any_eq_true.1 heos
    exact hs.eosFree t.1 ⟨t, ht, rfl, List.contains_iff_mem.1 hid⟩
  · cases h

/-- What the caps measure of a token map: its ids once each under a key. -/
def mapLoad (eos : Nat) (logitsVocabSize : Option Nat) (tokens : TokenMap) : Load where
  tokens := tokens.entries.length
  bytes := keyTotal tokens.entries
  ids := idTotal (tokens.mapValues dedupIds).entries
  peak := 0
  budget := 0
  width := askedWidth eos logitsVocabSize tokens.entries

/-- **A token map that passes its checks is refused for its lengths alone.** -/
theorem build_refuses (logitsVocabSize : Option Nat) {err : CompileError} (hv : buildVocabulary eos tokens = .ok vocab)
    (h : build vocab = .error err) : (mapLoad eos logitsVocabSize tokens).Exceeds err := by
  obtain ⟨htokens, -⟩ := buildVocabulary_ok hv
  unfold build at h
  obtain ⟨hbytes, hids⟩ := totals_perm (List.mergeSort_perm vocab.tokens.entries fun a b => decide (a.1 ≤ b.1))
  have hkeys : keyTotal (tokens.mapValues dedupIds).entries = keyTotal tokens.entries := by
    unfold keyTotal TokenMap.mapValues
    rw [List.map_map]
    rfl
  have hrefused := fromSortedPairs_error h
  rw [hbytes, hids, htokens, hkeys] at hrefused
  rcases hrefused with ⟨rfl, hpast⟩ | ⟨rfl, hpast⟩ | ⟨rfl, hpast⟩ | ⟨rfl, hpast⟩
  · exact .byteTotal hpast
  · exact .idTotal hpast
  · exact .blob hpast
  · exact .ids hpast

/-- **A token map that passes its checks is built into the table of sound entries.** -/
theorem build_leaves {a : PreparedArrays} (hv : buildVocabulary eos tokens = .ok vocab) (h : build vocab = .ok a) :
    Leaves eos tokens.entries a := by
  obtain ⟨htokens, hsound⟩ := buildVocabulary_ok hv
  have htable := build_ok (fun t ht => by
    rw [htokens] at ht
    obtain ⟨t', -, rfl⟩ := List.mem_map.1 ht
    exact (dedupIds_spec t'.2).1) h
  obtain ⟨hkeys, hlists⟩ := dedup_same tokens
  rw [htokens] at htable
  exact ⟨⟨htable.sorted, htable.ascending, fun k => (htable.keys k).trans (hkeys k),
    fun k id => (htable.lists k id).trans (hlists k id)⟩, hsound⟩

end Map

end PreparedArrays

end MaskForge
