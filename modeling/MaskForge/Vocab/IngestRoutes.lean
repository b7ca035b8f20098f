import MaskForge.Vocab.IngestPacked
/-!
# IngestRoutes — all ways in give one vocabulary

The arrays a route leaves become a canonical vocabulary, and a listing has one table: so two routes over the same items
return the same vocabulary, or both refuse because the items are none (`Admissible`), or one of them exceeds a cap.
-/
namespace MaskForge

open SortedTable (HasKey Listed Tabulates hasKey_perm listed_perm)

namespace PreparedArrays

/-! ## The canonical vocabulary -/

/-- What `from_prepared` relies on. -/
structure Canonical (eos : Nat) (a : PreparedArrays) : Prop where
  sorted : a.iter.Pairwise (fun a b => a.1 < b.1)
  nonEmptyTokens : ∀ r ∈ a.iter, r.1 ≠ []
  nonEmptyIds : ∀ r ∈ a.iter, r.2 ≠ []
  ascendingIds : ∀ r ∈ a.iter, r.2.Pairwise (· < ·)
  eosFree : ∀ r ∈ a.iter, eos ∉ r.2

/-- The records of canonical arrays. -/
def prepared {eos : Nat} (a : PreparedArrays) (h : a.Canonical eos) : PreparedVocabulary eos where
  records := a.iter
  sorted := h.sorted
  nonEmptyTokens := h.nonEmptyTokens
  nonEmptyIds := h.nonEmptyIds
  ascendingIds := h.ascendingIds
  eosFree := h.eosFree

theorem Leaves.canonical {eos : Nat} {items : List TokenRecord} {a : PreparedArrays} (h : Leaves eos items a) :
    a.Canonical eos where
  sorted := h.table.sorted
  nonEmptyTokens := fun r hr => h.sound.tokens r.1 ((h.table.keys r.1).1 ⟨r, hr, rfl⟩)
  nonEmptyIds := by
    intro r hr hnil
    obtain ⟨id, hid⟩ := h.sound.grouped r.1 ((h.table.keys r.1).1 ⟨r, hr, rfl⟩)
    have := (SortedTable.listed_row h.table.sorted hr id).1 ((h.table.lists r.1 id).2 hid)
    rw [hnil] at this
    cases this
  ascendingIds := h.table.ascending
  eosFree := fun r hr hid => h.sound.eosFree r.1 ((h.table.lists r.1 eos).1 ⟨r, hr, rfl, hid⟩)

end PreparedArrays

open PreparedArrays (Leaves Sound Canonical)

/-- The two kinds of error a caller sees. -/
inductive CoreError where
  | compile (e : CompileError)
  | vocab (e : VocabError)

namespace CanonicalVocabulary

/-- `build_vocabulary`, then `from_vocabulary_with_logits_vocab_size`. -/
def fromTokenMap (d : Digests) (eos : Nat) (tokens : TokenMap) (logitsVocabSize : Option Nat) :
    Except CoreError (CanonicalVocabulary eos) :=
  match hv : buildVocabulary eos tokens with
  | .error e => .error (.vocab e)
  | .ok _ =>
    match ha : PreparedArrays.build _ with
    | .error e => .error (.compile e)
    | .ok a => (fromPrepared d (a.prepared (PreparedArrays.build_leaves hv ha).canonical) logitsVocabSize).mapError
        .compile

/-- `from_packed_with_logits_vocab_size`. -/
def fromPacked (d : Digests) (tokenBytes : List Byte) (byteOffsets tokenIds idOffsets : List Nat) (eos : Nat)
    (logitsVocabSize : Option Nat) : Except CompileError (CanonicalVocabulary eos) :=
  match ha : PreparedArrays.buildFromPacked tokenBytes byteOffsets tokenIds idOffsets eos with
  | .error e => .error e
  | .ok a =>
    have hleaves : a.Canonical eos := by
      obtain ⟨_, -, h⟩ := PreparedArrays.buildFromPacked_leaves ha
      exact h.canonical
    fromPrepared d (a.prepared hleaves) logitsVocabSize

/-- `from_dense_id_ordered_with_logits_vocab_size`. -/
def fromDenseIdOrdered (d : Digests) (tokenBytes : List Byte) (byteOffsets : List Nat) (present : List Bool) (eos : Nat)
    (logitsVocabSize : Option Nat) : Except CompileError (CanonicalVocabulary eos) :=
  match ha : PreparedArrays.buildFromDenseIdOrdered tokenBytes byteOffsets present eos with
  | .error e => .error e
  | .ok a =>
    have hleaves : a.Canonical eos := by
      obtain ⟨_, -, h⟩ := PreparedArrays.buildFromDense_leaves ha
      exact h.canonical
    fromPrepared d (a.prepared hleaves) logitsVocabSize

theorem inferredWidth_le {eos : Nat} {p : PreparedVocabulary eos} {width : Nat} :
    inferredWidth p ≤ width ↔ eos < width ∧ ∀ r ∈ p.records, ∀ id ∈ r.2, id < width := by
  unfold inferredWidth
  cases hmax : p.ordinaryMax with
  | none =>
    have hnil : p.records.flatMap Prod.snd = [] := List.max?_eq_none_iff.1 hmax
    refine ⟨fun h => ⟨h, fun r hr id hid => ?_⟩, fun h => h.1⟩
    have := List.mem_flatMap.2 ⟨r, hr, hid⟩
    rw [hnil] at this
    cases this
  | some maxId =>
    obtain ⟨hmem, hmost⟩ := List.max?_eq_some_iff.1 hmax
    constructor
    · intro h
      refine ⟨by simp only at h; omega, fun r hr id hid => ?_⟩
      have := hmost id (List.mem_flatMap.2 ⟨r, hr, hid⟩)
      simp only at h
      omega
    · rintro ⟨heos, hids⟩
      obtain ⟨r, hr, hid⟩ := List.mem_flatMap.1 hmem
      have := hids r hr maxId hid
      show max maxId eos + 1 ≤ width
      omega

end CanonicalVocabulary

open CanonicalVocabulary (fromTokenMap fromPacked fromDenseIdOrdered fromPrepared fromPrepared_ok inferredWidth
  inferredWidth_le maskWidth record_unique)

/-- The items are a vocabulary: sound, no id under two byte strings, and an explicit width covers every id. -/
structure Admissible (eos : Nat) (logitsVocabSize : Option Nat) (items : List TokenRecord) : Prop
    extends Sound eos items where
  unambiguous : ∀ k k' id, Listed items k id → Listed items k' id → k = k'
  fits : ∀ width, logitsVocabSize = some width → eos < width ∧ ∀ k id, Listed items k id → id < width

section Prepared

variable {d : Digests} {eos : Nat} {logitsVocabSize : Option Nat} {items : List TokenRecord} {a : PreparedArrays}

/-- **What a canonical vocabulary was built from is a vocabulary.** -/
theorem fromPrepared_admissible (ha : Leaves eos items a) {v : CanonicalVocabulary eos}
    (h : fromPrepared d (a.prepared ha.canonical) logitsVocabSize = .ok v) : Admissible eos logitsVocabSize items := by
  have hbound := fromPrepared_ok h
  refine ⟨ha.sound, fun k k' id hk hk' => ?_, fun width hwidth => ?_⟩
  · obtain ⟨r, hr, rfl, hid⟩ := (ha.table.lists k id).2 hk
    obtain ⟨r', hr', rfl, hid'⟩ := (ha.table.lists k' id).2 hk'
    exact record_unique hbound hr hr' hid hid'
  · unfold fromPrepared at h
    obtain ⟨width', hw, -⟩ := bind_ok h
    rw [hwidth] at hw
    unfold maskWidth at hw
    simp only at hw
    split at hw
    · cases hw
    · rename_i hle
      obtain ⟨heos, hids⟩ := inferredWidth_le.1 (Nat.le_of_not_lt hle)
      refine ⟨heos, fun k id hk => ?_⟩
      obtain ⟨r, hr, -, hid⟩ := (ha.table.lists k id).2 hk
      exact hids r hr id hid

/-- The records need as wide a mask as the items they are the table of. -/
theorem inferredWidth_eq (ha : Leaves eos items a) :
    inferredWidth (a.prepared ha.canonical) = idWidth eos (items.flatMap Prod.snd) := by
  rw [idWidth_same fun k id => (ha.table.lists k id).symm]
  refine Nat.le_antisymm (inferredWidth_le.2 ?_) (idWidth_le.2 ?_)
  · obtain ⟨heos, hids⟩ := idWidth_le.1 (Nat.le_refl (idWidth eos (a.iter.flatMap Prod.snd)))
    exact ⟨heos, fun r hr id hid => hids id (List.mem_flatMap.2 ⟨r, hr, hid⟩)⟩
  · obtain ⟨heos, hids⟩ := inferredWidth_le.1 (Nat.le_refl (inferredWidth (a.prepared ha.canonical)))
    refine ⟨heos, fun id hid => ?_⟩
    obtain ⟨r, hr, hid⟩ := List.mem_flatMap.1 hid
    exact hids r hr id hid

/-- A table has no more records than its listing has items. -/
theorem length_le_of_tabulates {table rows : List TokenRecord} (h : SortedTable.Tabulates table rows) :
    table.length ≤ rows.length := by
  have hnodup : (table.map Prod.fst).Nodup := by
    refine (List.pairwise_map.2 h.sorted).imp ?_
    rintro k k' hlt rfl
    exact List.lt_irrefl _ hlt
  have hsub : table.map Prod.fst ⊆ rows.map Prod.fst := by
    intro k hk
    obtain ⟨r, hr, rfl⟩ := List.mem_map.1 hk
    obtain ⟨r', hr', hkey⟩ := (h.keys r.1).1 ⟨r, hr, rfl⟩
    exact List.mem_map.2 ⟨r', hr', hkey⟩
  have hlen := (List.subperm_of_subset hnodup hsub).length_le
  rwa [List.length_map, List.length_map] at hlen

/-- **What `from_prepared` refuses is past a cap or no vocabulary.** -/
theorem fromPrepared_error (ha : Leaves eos items a) {load : Load}
    (hwidth : load.width = askedWidth eos logitsVocabSize items)
    (htokens : a.iter.length ≤ load.tokens) {err : CompileError}
    (h : fromPrepared d (a.prepared ha.canonical) logitsVocabSize = .error err) :
    load.Exceeds err ∨ ¬Admissible eos logitsVocabSize items := by
  unfold fromPrepared at h
  rcases bind_error h with hw | ⟨width, hw, h⟩
  · unfold maskWidth at hw
    split at hw
    · rename_i width
      split at hw
      · rename_i hlt
        refine .inr fun hadm => Nat.not_le_of_lt hlt (inferredWidth_le.2 ?_)
        obtain ⟨heos, hids⟩ := hadm.fits width rfl
        exact ⟨heos, fun r hr id hid => hids r.1 id ((ha.table.lists r.1 id).1 ⟨r, hr, rfl, hid⟩)⟩
      · cases hw
    · cases hw
  have hle : inferredWidth (a.prepared ha.canonical) ≤ width ∧ width ≤ askedWidth eos logitsVocabSize items := by
    unfold maskWidth at hw
    split at hw
    · split at hw
      · cases hw
      · cases hw
        exact ⟨by omega, Nat.le_max_right _ _⟩
    · cases hw
      exact ⟨Nat.le_refl _, Nat.le_trans (Nat.le_of_eq (inferredWidth_eq ha)) (Nat.le_max_left _ _)⟩
  obtain ⟨hle, hasked⟩ := hle
  split at h
  · rename_i hpast
    cases h
    exact .inl (.maskWidth (hwidth ▸ Nat.lt_of_lt_of_le hpast hasked))
  rename_i hcap
  rcases bind_error h with h | ⟨_, -, h⟩
  · have hmax : ∀ m, (a.prepared ha.canonical).ordinaryMax = some m → m + 1 < absent := by
      intro m hm
      have hm : m < width := by
        obtain ⟨r, hr, hid⟩ := List.mem_flatMap.1 (List.max?_eq_some_iff.1 hm).1
        exact (inferredWidth_le.1 hle).2 r hr m hid
      unfold maxMaskTokens at hcap
      unfold absent u32Size
      omega
    rcases IdIndex.build_error hmax h with ⟨rfl, hpast⟩ | ⟨-, i, j, r, r', hij, hr, hr', id, hid, hid'⟩
    · exact .inl (.records (Nat.lt_of_lt_of_le hpast htokens))
    · refine .inr fun hadm => ?_
      have hi := (List.getElem?_eq_some_iff.1 hr)
      have hj := (List.getElem?_eq_some_iff.1 hr')
      have hlt : r.1 < r'.1 := by
        rw [← hi.2, ← hj.2]
        exact List.pairwise_iff_getElem.1 ha.table.sorted i j hi.1 hj.1 hij
      have hsame := hadm.unambiguous r.1 r'.1 id
        ((ha.table.lists r.1 id).1 ⟨r, List.mem_of_getElem? hr, rfl, hid⟩)
        ((ha.table.lists r'.1 id).1 ⟨r', List.mem_of_getElem? hr', rfl, hid'⟩)
      rw [hsame] at hlt
      exact List.lt_irrefl _ hlt
  · cases h

end Prepared

open PreparedArrays (csrOffsets slotItems)

/-! ## The routes agree -/

/-- The ways some items come in, with what their caps measure: as a token map with their merged entries in any
order, packed in any order with keys left unmerged, or, where the slots of a dense decode list what the items list,
as that decode. -/
inductive Route (d : Digests) (eos : Nat) (logitsVocabSize : Option Nat) (items : List TokenRecord) :
    Load → Except CoreError (CanonicalVocabulary eos) → Prop where
  | tokenMap {tokens : TokenMap} : tokens.entries.Perm (tokenMap items).entries →
    Route d eos logitsVocabSize items (PreparedArrays.mapLoad eos logitsVocabSize tokens)
      (fromTokenMap d eos tokens logitsVocabSize)
  | packed {packing : List TokenRecord} : packing.Perm items →
    Route d eos logitsVocabSize items
      (PreparedArrays.packedLoad eos PreparedArrays.maxPackedProjectedPeakBytes logitsVocabSize packing)
        ((fromPacked d (packing.map Prod.fst).flatten (csrOffsets (packing.map Prod.fst))
      (packing.map Prod.snd).flatten (csrOffsets (packing.map Prod.snd)) eos logitsVocabSize).mapError .compile)
  | dense {slots : List (List Byte × Bool)} : (∀ k, HasKey (slotItems slots) k ↔ HasKey items k) →
    (∀ k id, Listed (slotItems slots) k id ↔ Listed items k id) →
    Route d eos logitsVocabSize items
      (PreparedArrays.denseLoad eos PreparedArrays.maxPackedProjectedPeakBytes logitsVocabSize slots)
        ((fromDenseIdOrdered d (slots.map Prod.fst).flatten (csrOffsets (slots.map Prod.fst))
      (slots.map Prod.snd) eos logitsVocabSize).mapError .compile)

section Routes

variable {d : Digests} {eos : Nat} {logitsVocabSize : Option Nat} {items : List TokenRecord} {load load' : Load}
  {r r' : Except CoreError (CanonicalVocabulary eos)}

/-- What a route comes to: the canonical vocabulary of arrays with the items' table, or a refusal. -/
inductive Outcome (d : Digests) (eos : Nat) (logitsVocabSize : Option Nat) (items : List TokenRecord) (load : Load) :
    Except CoreError (CanonicalVocabulary eos) → Prop where
  | prepared {a : PreparedArrays} (ha : Leaves eos items a) : a.iter.length ≤ load.tokens →
    Outcome d eos logitsVocabSize items load
      ((fromPrepared d (a.prepared ha.canonical) logitsVocabSize).mapError .compile)
  | unsound {e : CoreError} : ¬Sound eos items → Outcome d eos logitsVocabSize items load (.error e)
  | cap {err : CompileError} : load.Exceeds err → Outcome d eos logitsVocabSize items load (.error (.compile err))

/-- A route over arrays leaves the items' table where its own listing is the items'. -/
theorem outcome_of_arrays (d : Digests) (logitsVocabSize : Option Nat) {build : Except CompileError PreparedArrays}
    {listed : List TokenRecord} (hleaves : ∀ {a}, build = .ok a → Leaves eos listed a)
    (hrefuses : ∀ {err}, build = .error err → load.Exceeds err ∨ ¬Sound eos listed) (hlen : listed.length ≤ load.tokens)
    (hkeys : ∀ k, HasKey listed k ↔ HasKey items k) (hlists : ∀ k id, Listed listed k id ↔ Listed items k id) :
    (∀ err, build = .error err → Outcome d eos logitsVocabSize items load (.error (.compile err))) ∧
    ∀ a, build = .ok a → Leaves eos items a ∧ a.iter.length ≤ load.tokens := by
  refine ⟨fun err h => ?_, fun a h => ⟨(hleaves h).same hkeys hlists, ?_⟩⟩
  · rcases hrefuses h with hcap | hunsound
    · exact .cap hcap
    · exact .unsound fun hs => hunsound (hs.same (fun k => (hkeys k).symm) fun k id => (hlists k id).symm)
  · exact Nat.le_trans (length_le_of_tabulates (hleaves h).table) hlen

/-- The mask a route's caps measure is the items'. -/
theorem Route.width (h : Route d eos logitsVocabSize items load r) :
    load.width = askedWidth eos logitsVocabSize items := by
  unfold askedWidth
  cases h with
  | @tokenMap tokens hperm =>
    rw [← idWidth_same fun k id => (listed_perm hperm k id).trans ((tokenMap_spec items).2 k id)]
    rfl
  | @packed packing hperm =>
    rw [← idWidth_same (listed_perm hperm)]
    rfl
  | @dense slots hkeys hlists =>
    rw [← idWidth_same hlists]
    rfl

/-- **Every way in comes to an outcome.** -/
theorem Route.outcome (h : Route d eos logitsVocabSize items load r) : Outcome d eos logitsVocabSize items load r := by
  cases h with
  | @tokenMap tokens hperm =>
    have hkeys : ∀ k, HasKey tokens.entries k ↔ HasKey items k := fun k =>
      (hasKey_perm hperm k).trans ((tokenMap_spec items).1 k)
    have hlists : ∀ k id, Listed tokens.entries k id ↔ Listed items k id := fun k id =>
      (listed_perm hperm k id).trans ((tokenMap_spec items).2 k id)
    unfold fromTokenMap
    split
    · rename_i e hv
      exact .unsound fun hs => PreparedArrays.buildVocabulary_error hv
        (hs.same (fun k => (hkeys k).symm) fun k id => (hlists k id).symm)
    · rename_i vocab hv
      split
      · rename_i e ha
        exact .cap (PreparedArrays.build_refuses logitsVocabSize hv ha)
      · rename_i a ha
        have hleaves := PreparedArrays.build_leaves hv ha
        exact .prepared (hleaves.same hkeys hlists) (length_le_of_tabulates hleaves.table)
  | @packed packing hperm =>
    have hchecked := PreparedArrays.packedItems_checked eos PreparedArrays.maxPackedProjectedPeakBytes
      logitsVocabSize packing
    obtain ⟨herror, hok⟩ := outcome_of_arrays d logitsVocabSize hchecked.leaves hchecked.refuses (Nat.le_refl _)
      (hasKey_perm hperm) (listed_perm hperm)
    unfold fromPacked
    split
    · rename_i e ha
      exact herror e ha
    · rename_i a ha
      obtain ⟨hleaves, hlen⟩ := hok a ha
      exact .prepared hleaves hlen
  | @dense slots hkeys hlists =>
    have hchecked := PreparedArrays.denseSlots_checked eos PreparedArrays.maxPackedProjectedPeakBytes
      logitsVocabSize slots
    have hlen : (slotItems slots).length ≤ slots.length := by
      unfold slotItems
      rw [List.length_map]
      exact Nat.le_trans (List.length_filter_le _ _) (Nat.le_of_eq List.length_zipIdx)
    obtain ⟨herror, hok⟩ := outcome_of_arrays d logitsVocabSize hchecked.leaves hchecked.refuses hlen hkeys hlists
    unfold fromDenseIdOrdered
    split
    · rename_i e ha
      exact herror e ha
    · rename_i a ha
      obtain ⟨hleaves, hlen⟩ := hok a ha
      exact .prepared hleaves hlen

/-- The mask is as wide as it was asked to be, or as the ids need. -/
theorem fromPrepared_width {p : PreparedVocabulary eos} {v : CanonicalVocabulary eos}
    (h : fromPrepared d p logitsVocabSize = .ok v) : v.maskVocabSize = logitsVocabSize.getD (inferredWidth p) := by
  unfold fromPrepared at h
  obtain ⟨width, hw, h⟩ := bind_ok h
  split at h
  · cases h
  obtain ⟨index, -, h⟩ := bind_ok h
  cases h
  unfold maskWidth at hw
  split at hw
  · split at hw
    · cases hw
    · cases hw
      rfl
  · cases hw
    rfl

/-- What a vocabulary that comes in is: the one sorted table of its items, its fingerprint, its width and its
reverse index. -/
structure Ingested (d : Digests) (logitsVocabSize : Option Nat) (items : List TokenRecord)
    (v : CanonicalVocabulary eos) :
    Prop where
  admissible : Admissible eos logitsVocabSize items
  table : Tabulates v.prepared.records items
  fingerprint : v.fingerprint = d.vocab v.prepared.records eos
  width : v.maskVocabSize = logitsVocabSize.getD (inferredWidth v.prepared)
  tokenBytes : ∀ id bytes, v.tokenBytes id = some bytes ↔ ∃ r ∈ v.prepared.records, r.1 = bytes ∧ id ∈ r.2

theorem ingested {a : PreparedArrays} (ha : Leaves eos items a) {v : CanonicalVocabulary eos}
    (h : fromPrepared d (a.prepared ha.canonical) logitsVocabSize = .ok v) : Ingested d logitsVocabSize items v := by
  have hbound := fromPrepared_ok h
  refine ⟨fromPrepared_admissible ha h, ?_, ?_, ?_, ?_⟩
  · rw [hbound.prepared]
    exact ha.table
  · rw [hbound.prepared]
    exact hbound.fingerprint
  · rw [hbound.prepared]
    exact fromPrepared_width h
  · rw [hbound.prepared]
    exact CanonicalVocabulary.tokenBytes_iff hbound

/-- Arrays with one listing's table hold the same records. -/
theorem prepared_eq {a a' : PreparedArrays} (ha : Leaves eos items a) (ha' : Leaves eos items a') :
    a.prepared ha.canonical = a'.prepared ha'.canonical := by
  have hiter : a.iter = a'.iter := ha.table.unique ha'.table (fun _ => Iff.rfl) fun _ _ => Iff.rfl
  unfold PreparedArrays.prepared
  simp only [hiter]

/-- What a route refuses is past a cap, or the items are not a vocabulary. -/
theorem Outcome.refuses (h : Outcome d eos logitsVocabSize items load r)
    (hwidth : load.width = askedWidth eos logitsVocabSize items) {e : CoreError} (hr : r = .error e) :
    (∃ err, e = .compile err ∧ load.Exceeds err) ∨ ¬Admissible eos logitsVocabSize items := by
  cases h with
  | prepared ha hlen =>
    cases hp : fromPrepared d (PreparedArrays.prepared _ ha.canonical) logitsVocabSize with
    | ok v =>
      rw [hp] at hr
      cases hr
    | error err =>
      rw [hp] at hr
      cases hr
      exact (fromPrepared_error ha hwidth hlen hp).imp_left fun hcap => ⟨err, rfl, hcap⟩
  | unsound hs => exact .inr fun hadm => hs hadm.toSound
  | cap hcap =>
    cases hr
    exact .inl ⟨_, rfl, hcap⟩

/-- What a route returns is the canonical vocabulary of the items' table. -/
theorem Outcome.returns (h : Outcome d eos logitsVocabSize items load r) {v : CanonicalVocabulary eos}
    (hr : r = .ok v) :
    ∃ (a : PreparedArrays) (ha : Leaves eos items a), fromPrepared d (a.prepared ha.canonical) logitsVocabSize =
    .ok v := by
  cases h with
  | prepared ha hlen =>
    refine ⟨_, ha, ?_⟩
    cases hp : fromPrepared d (PreparedArrays.prepared _ ha.canonical) logitsVocabSize with
    | ok v' =>
      rw [hp] at hr
      cases hr
      rfl
    | error err =>
      rw [hp] at hr
      cases hr
  | unsound hs => cases hr
  | cap hcap => cases hr

/-- **All ways in agree.**  Two of them return one vocabulary, the sorted table of the items with its reverse index, or
both refuse, which is where the items are not a vocabulary; or one of them refuses with the error of a cap that its own
load exceeds. -/
theorem ingestion_routes_agree (h : Route d eos logitsVocabSize items load r)
    (h' : Route d eos logitsVocabSize items load' r') :
    (∃ v, r = .ok v ∧ r' = .ok v ∧ Ingested d logitsVocabSize items v) ∨
    ((∃ e e', r = .error e ∧ r' = .error e') ∧ ¬Admissible eos logitsVocabSize items) ∨
    (∃ err, r = .error (.compile err) ∧ load.Exceeds err) ∨ ∃ err, r' = .error (.compile err) ∧ load'.Exceeds err := by
  have ho := h.outcome
  have ho' := h'.outcome
  cases hr : r with
  | ok v =>
    obtain ⟨a, ha, hv⟩ := ho.returns hr
    cases hr' : r' with
    | ok v' =>
      obtain ⟨a', ha', hv'⟩ := ho'.returns hr'
      rw [prepared_eq ha' ha, hv] at hv'
      cases hv'
      exact .inl ⟨v, rfl, rfl, ingested ha hv⟩
    | error e' =>
      rcases ho'.refuses h'.width hr' with ⟨err, rfl, hcap⟩ | hnot
      · exact .inr (.inr (.inr ⟨err, rfl, hcap⟩))
      · exact absurd (ingested ha hv).admissible hnot
  | error e =>
    rcases ho.refuses h.width hr with ⟨err, rfl, hcap⟩ | hnot
    · exact .inr (.inr (.inl ⟨err, rfl, hcap⟩))
    · cases hr' : r' with
      | ok v' =>
        obtain ⟨a', ha', hv'⟩ := ho'.returns hr'
        exact absurd (ingested ha' hv').admissible hnot
      | error e' => exact .inr (.inl ⟨⟨e, e', rfl, rfl⟩, hnot⟩)

end Routes

/-! ### Keys that tie in the padded prefix -/

/-- One key and its extension by a zero byte, the shorter one listed twice. -/
def tiedItems : List TokenRecord := [([97], [2]), ([97, 0], [1]), ([97], [0])]

def tiedSlots : List (List Byte × Bool) := [([97], true), ([97, 0], true), ([97], true)]

def tiedArrays : PreparedArrays := ⟨[97, 97, 0], [⟨0, 1, 0, 2⟩, ⟨1, 3, 2, 3⟩], [0, 2, 1]⟩

section Tied

variable {key : Nat → List Byte}

theorem tied_order (h0 : key 0 = [97]) (h1 : key 1 = [97, 0]) (h2 : key 2 = [97]) :
    PreparedArrays.sortOrder key [0, 1, 2] = [⟨97 * 256 ^ 7, 0⟩, ⟨97 * 256 ^ 7, 2⟩, ⟨97 * 256 ^ 7, 1⟩] := by
  have hshort : PreparedArrays.lexicalPrefix [97] = 97 * 256 ^ 7 := by decide
  have hlong : PreparedArrays.lexicalPrefix [97, 0] = 97 * 256 ^ 7 := by decide
  have hle : ([97] : List Byte) ≤ [97, 0] := by decide
  have hlt : ¬([97, 0] : List Byte) ≤ [97] := by decide
  simp [PreparedArrays.sortOrder, List.mergeSort, List.MergeSort.Internal.splitInTwo, PreparedArrays.PackedSortKey.le,
    h0, h1, h2, hshort, hlong, hle, hlt]

theorem tied_loop {groupIds : List Nat → Except CompileError (List Nat)} (h0 : key 0 = [97]) (h1 : key 1 = [97, 0])
    (h2 : key 2 = [97]) (hmerged : groupIds [0, 2] = .ok [0, 2]) (hsingle : groupIds [1] = .ok [1]) :
    PreparedArrays.groupLoop key groupIds (PreparedArrays.sortOrder key [0, 1, 2]).length
    (PreparedArrays.sortOrder key [0, 1, 2])
      .empty = .ok tiedArrays := by
  rw [tied_order h0 h1 h2]
  simp [PreparedArrays.groupLoop, h0, h1, h2, hmerged, hsingle, PreparedArrays.pushRecord, checkedU32, u32Size, bind,
    Except.bind, PreparedArrays.empty, tiedArrays]

end Tied

theorem packed_tied :
    PreparedArrays.packedItems 3 PreparedArrays.maxPackedProjectedPeakBytes tiedItems = .ok tiedArrays := by
  have hmerged : sortDedup [2, 0] = [0, 2] := by simp [sortDedup, List.mergeSort, List.MergeSort.Internal.splitInTwo]
  refine Eq.trans ?_ (@tied_loop (PreparedArrays.rowAt (tiedItems.map Prod.fst).flatten
    (csrOffsets (tiedItems.map Prod.fst)))
    (PreparedArrays.packedGroupIds
      (PreparedArrays.rowAt (tiedItems.map Prod.snd).flatten (csrOffsets (tiedItems.map Prod.snd)))) rfl rfl rfl ?_ rfl)
  · rfl
  · exact congrArg Except.ok hmerged

theorem dense_tied : PreparedArrays.denseSlots 3 PreparedArrays.maxPackedProjectedPeakBytes tiedSlots =
    .ok tiedArrays := by
  have hmerged : sortDedup [0, 2] = [0, 2] := by simp [sortDedup, List.mergeSort, List.MergeSort.Internal.splitInTwo]
  refine Eq.trans ?_ (@tied_loop (PreparedArrays.rowAt (tiedSlots.map Prod.fst).flatten
    (csrOffsets (tiedSlots.map Prod.fst)))
    PreparedArrays.denseGroupIds rfl rfl rfl ?_ rfl)
  · rfl
  · exact congrArg Except.ok hmerged

/-- The map of the tied items: the ids of the shorter key in the order they came. -/
def tiedVocabulary : Vocabulary := ⟨3, (tokenMap tiedItems).mapValues dedupIds⟩

theorem map_tied : buildVocabulary 3 (tokenMap tiedItems) = .ok tiedVocabulary ∧
    PreparedArrays.build tiedVocabulary = .ok tiedArrays := by
  have hentries : tiedVocabulary.tokens.entries = [([97], [2, 0]), ([97, 0], [1])] := by decide
  have hle : ([97] : List Byte) ≤ [97, 0] := by decide
  refine ⟨rfl, ?_⟩
  unfold PreparedArrays.build
  rw [hentries]
  simp [List.mergeSort, List.MergeSort.Internal.splitInTwo, hle, PreparedArrays.fromSortedPairs,
    PreparedArrays.checkedTotal,
    PreparedArrays.checkAddressableTotals, PreparedArrays.pushRecord, checkedU32, u32Size, usizeMax, bind,
    Except.bind, pure, Except.pure, PreparedArrays.empty, tiedArrays]

theorem fromTokenMap_ok {d : Digests} {eos : Nat} {logitsVocabSize : Option Nat} {items : List TokenRecord}
    {tokens : TokenMap} {vocab : Vocabulary} {a : PreparedArrays} (ha : Leaves eos items a)
    (hv : buildVocabulary eos tokens = .ok vocab) (h : PreparedArrays.build vocab = .ok a) :
    fromTokenMap d eos tokens logitsVocabSize =
      (fromPrepared d (a.prepared ha.canonical) logitsVocabSize).mapError .compile := by
  unfold fromTokenMap
  split
  · rename_i e he
    cases hv.symm.trans he
  · rename_i vocab' hv'
    cases hv.symm.trans hv'
    split
    · rename_i e he
      cases h.symm.trans he
    · rename_i a' ha'
      cases h.symm.trans ha'
      rfl

theorem fromPacked_ok {d : Digests} {eos : Nat} {logitsVocabSize : Option Nat} {items : List TokenRecord}
    {a : PreparedArrays} (ha : Leaves eos items a)
    (h : PreparedArrays.packedItems eos PreparedArrays.maxPackedProjectedPeakBytes items = .ok a) :
    fromPacked d (items.map Prod.fst).flatten (csrOffsets (items.map Prod.fst)) (items.map Prod.snd).flatten
      (csrOffsets (items.map Prod.snd)) eos logitsVocabSize =
      fromPrepared d (a.prepared ha.canonical) logitsVocabSize := by
  unfold fromPacked
  split
  · rename_i e he
    cases h.symm.trans he
  · rename_i a' ha'
    cases h.symm.trans ha'
    rfl

theorem fromDenseIdOrdered_ok {d : Digests} {eos : Nat} {logitsVocabSize : Option Nat} {slots : List (List Byte × Bool)}
    {a : PreparedArrays} (ha : Leaves eos (slotItems slots) a)
    (h : PreparedArrays.denseSlots eos PreparedArrays.maxPackedProjectedPeakBytes slots = .ok a) :
    fromDenseIdOrdered d (slots.map Prod.fst).flatten (csrOffsets (slots.map Prod.fst)) (slots.map Prod.snd) eos
      logitsVocabSize = fromPrepared d (a.prepared ha.canonical) logitsVocabSize := by
  unfold fromDenseIdOrdered
  split
  · rename_i e he
    cases h.symm.trans he
  · rename_i a' ha'
    cases h.symm.trans ha'
    rfl

/-- Counts where a digest would be. -/
def countDigests : Digests := ⟨fun records eos => records.length + eos, fun _ => 0⟩

theorem tied_leaves : Leaves 3 tiedItems tiedArrays :=
  (PreparedArrays.packedItems_checked 3 PreparedArrays.maxPackedProjectedPeakBytes none tiedItems).leaves packed_tied

theorem tied_slots : (slotItems tiedSlots).Perm tiedItems := by decide

theorem tied_slots_leaves : Leaves 3 (slotItems tiedSlots) tiedArrays :=
  (PreparedArrays.denseSlots_checked 3 PreparedArrays.maxPackedProjectedPeakBytes none tiedSlots).leaves dense_tied

theorem tied_prepared : ∃ v, fromPrepared countDigests (tiedArrays.prepared tied_leaves.canonical) none = .ok v := by
  have hsome : (fromPrepared countDigests (tiedArrays.prepared tied_leaves.canonical) none).toOption.isSome = true := by
    decide +kernel
  cases hv : fromPrepared countDigests (tiedArrays.prepared tied_leaves.canonical) none with
  | ok v => exact ⟨v, rfl⟩
  | error err =>
    rw [hv] at hsome
    cases hsome

/-- All three ways in return one vocabulary. -/
theorem ingestion_routes_agree_tied : ∃ v,
    fromTokenMap countDigests 3 (tokenMap tiedItems) none = .ok v ∧
    (fromPacked countDigests (tiedItems.map Prod.fst).flatten (csrOffsets (tiedItems.map Prod.fst))
      (tiedItems.map Prod.snd).flatten (csrOffsets (tiedItems.map Prod.snd)) 3 none).mapError CoreError.compile =
      .ok v ∧
    (fromDenseIdOrdered countDigests (tiedSlots.map Prod.fst).flatten (csrOffsets (tiedSlots.map Prod.fst))
      (tiedSlots.map Prod.snd) 3 none).mapError CoreError.compile = .ok v ∧ Ingested countDigests none tiedItems v := by
  obtain ⟨v, hv⟩ := tied_prepared
  have hmap : fromTokenMap countDigests 3 (tokenMap tiedItems) none = .ok v := by
    rw [fromTokenMap_ok tied_leaves map_tied.1 map_tied.2, hv]
    rfl
  have hpacked : (fromPacked countDigests (tiedItems.map Prod.fst).flatten (csrOffsets (tiedItems.map Prod.fst))
      (tiedItems.map Prod.snd).flatten (csrOffsets (tiedItems.map Prod.snd)) 3 none).mapError CoreError.compile =
      .ok v := by
    rw [fromPacked_ok tied_leaves packed_tied, hv]
    rfl
  have hdense : (fromDenseIdOrdered countDigests (tiedSlots.map Prod.fst).flatten (csrOffsets (tiedSlots.map Prod.fst))
      (tiedSlots.map Prod.snd) 3 none).mapError CoreError.compile = .ok v := by
    rw [fromDenseIdOrdered_ok tied_slots_leaves dense_tied, hv]
    rfl
  have hroute := @Route.packed countDigests 3 none tiedItems tiedItems (List.Perm.refl tiedItems)
  obtain ⟨w, hw, hw', -⟩ | ⟨⟨e, e', h, -⟩, -⟩ | ⟨err, h, -⟩ | ⟨err, h, -⟩ :=
    ingestion_routes_agree (.tokenMap (List.Perm.refl _)) hroute
  · obtain ⟨u, hu, hu', hingested⟩ | ⟨⟨e, e', h, -⟩, -⟩ | ⟨err, h, -⟩ | ⟨err, h, -⟩ :=
      ingestion_routes_agree hroute (.dense (hasKey_perm tied_slots) (listed_perm tied_slots))
    · rw [hu] at hw'
      cases hw'
      exact ⟨w, hw, hu, hu', hingested⟩
    · cases hpacked.symm.trans h
    · cases hpacked.symm.trans h
    · cases hdense.symm.trans h
  · cases hmap.symm.trans h
  · cases hmap.symm.trans h
  · cases hpacked.symm.trans h

end MaskForge
