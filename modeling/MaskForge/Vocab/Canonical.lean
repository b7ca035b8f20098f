import MaskForge.Primitives
import MaskForge.Lib.SortDedup
/-!
# Canonical — the byte-sorted vocabulary and its reverse index

`PreparedVocabulary` is what every ingestion route leaves behind: records in strictly ascending byte order, no empty
token, each with a strictly ascending non-empty id list that does not hold EOS.  `IdIndex::build` turns it into an
id-to-record table, dense or sparse by the byte estimate, and refuses an id two records claim.
-/
namespace MaskForge

abbrev TokenRecord := List Byte × List Nat

/-- Sorts and drops adjacent duplicates. -/
def sortDedup (ids : List Nat) : List Nat := (ids.mergeSort (fun a b => decide (a ≤ b))).destutter (· ≠ ·)

theorem length_sortDedup_le (ids : List Nat) : (sortDedup ids).length ≤ ids.length := by
  have hle := (List.destutter_sublist (· ≠ ·) (ids.mergeSort (fun a b => decide (a ≤ b)))).length_le
  rwa [List.length_mergeSort] at hle

theorem mem_sortDedup (ids : List Nat) (x : Nat) : x ∈ sortDedup ids ↔ x ∈ ids := by
  rw [sortDedup, SortDedup.mem_destutter, List.mem_mergeSort]

theorem sortDedup_sorted (ids : List Nat) : (sortDedup ids).Pairwise (· < ·) := by
  have hsorted : (sortDedup ids).Pairwise (· ≤ ·) := by
    have h := @List.pairwise_mergeSort _ (fun a b : Nat => decide (a ≤ b))
      (fun a b c => by simpa using Nat.le_trans) (fun a b => by simpa using Nat.le_total a b) ids
    exact (h.imp (fun hab => by simpa using hab)).sublist (List.destutter_sublist _ _)
  have hchain : (sortDedup ids).IsChain (· ≠ ·) := List.isChain_destutter _ _
  have hup : (sortDedup ids).IsChain (· < ·) := by
    rw [List.isChain_iff_getElem] at hchain ⊢
    intro i hi
    have hle := List.pairwise_iff_getElem.1 hsorted i (i + 1) (by omega) hi (by omega)
    exact Nat.lt_of_le_of_ne hle (hchain i hi)
  exact hup.pairwise

/-- The canonical records of a vocabulary whose EOS id is `eos`. -/
structure PreparedVocabulary (eos : Nat) where
  records : List TokenRecord
  sorted : records.Pairwise (fun a b => a.1 < b.1)
  nonEmptyTokens : ∀ r ∈ records, r.1 ≠ []
  nonEmptyIds : ∀ r ∈ records, r.2 ≠ []
  ascendingIds : ∀ r ∈ records, r.2.Pairwise (· < ·)
  eosFree : ∀ r ∈ records, eos ∉ r.2

namespace PreparedVocabulary

variable {eos : Nat} (p : PreparedVocabulary eos)

def totalIds : Nat := (p.records.map (fun r => r.2.length)).sum

/-- The largest ordinary id, `None` for an empty token map. -/
def ordinaryMax : Option Nat := (p.records.flatMap Prod.snd).max?

end PreparedVocabulary

/-- `ABSENT`, the dense table's mark for an id no record claims. -/
def absent : Nat := u32Size - 1

def conservativeSparseSlotBytes : Nat := 24

def maxMaskTokens : Nat := 2 ^ 21

inductive IdIndex where
  | dense (table : List Nat)
  | sparse (map : Nat → Option Nat)

def ambiguousId : CompileError :=
  ⟨.malformedTokenizer, .artifactValidate, "one token id maps to two different byte sequences"⟩

def recordIndexOverflow : CompileError := ⟨.internalLimitExceeded, .l4Bind, "record index exceeds u32"⟩

namespace IdIndex

/-- One id of record `ri` in the dense table: a distinct byte string that already claimed it makes it ambiguous. -/
def claimDense (ri : Nat) (table : List Nat) (id : Nat) : Except CompileError (List Nat) :=
  if table[id]?.getD absent ≠ absent ∧ table[id]?.getD absent ≠ ri then .error ambiguousId
  else .ok (table.set id ri)

def claimSparse (ri : Nat) (map : Nat → Option Nat) (id : Nat) : Except CompileError (Nat → Option Nat) :=
  match map id with
  | some existing => if existing ≠ ri then .error ambiguousId else .ok (Function.update map id (some ri))
  | none => .ok (Function.update map id (some ri))

/-- The record loop of `IdIndex::build`, over either table. -/
def claimAll {σ : Type} (claim : Nat → σ → Nat → Except CompileError σ) (records : List TokenRecord) (table : σ) :
    Except CompileError σ :=
  records.zipIdx.foldlM (fun t ri => checkedU32 recordIndexOverflow ri.2 >>= fun i => ri.1.2.foldlM (claim i) t) table

def build {eos : Nat} (p : PreparedVocabulary eos) : Except CompileError IdIndex :=
  match p.ordinaryMax with
  | none => .ok (.dense [])
  | some maxId =>
    if (maxId + 1) * 4 ≤ p.totalIds * conservativeSparseSlotBytes then
      claimAll claimDense p.records (List.replicate (maxId + 1) absent) >>= fun t => .ok (.dense t)
    else claimAll claimSparse p.records (fun _ => none) >>= fun m => .ok (.sparse m)

/-- How the dense table is read: a slot past its end, or marked `ABSENT`, is no record. -/
def readDense (table : List Nat) (id : Nat) : Option Nat :=
  match table[id]? with
  | none => none
  | some ri => if ri = absent then none else some ri

def recordOf : IdIndex → Nat → Option Nat
  | dense table, id => readDense table id
  | sparse map, id => map id

end IdIndex

/-- The mask width and the reverse index, built once a vocabulary. -/
structure CanonicalVocabulary (eos : Nat) where
  prepared : PreparedVocabulary eos
  idIndex : IdIndex
  maskVocabSize : Nat
  fingerprint : Nat

/-- The two content addresses the binders compare: of a vocabulary, and of an engine's byte-class partition.  Both are
BLAKE3 digests; nothing below depends on which digests they are. -/
structure Digests where
  vocab : List TokenRecord → Nat → Nat
  partition : (Byte → Nat) → Nat

def logitsVocabSizeTooSmall : CompileError :=
  ⟨.internalLimitExceeded, .l4Bind, "explicit logits vocab size is smaller than the largest token/EOS id"⟩

def maskWidthExceeded : CompileError := ⟨.internalLimitExceeded, .l4Bind, "mask width exceeds the token-id cap"⟩

namespace CanonicalVocabulary

variable {eos : Nat}

def inferredWidth (p : PreparedVocabulary eos) : Nat :=
  match p.ordinaryMax with
  | none => eos + 1
  | some m => max m eos + 1

/-- The explicit logits width where one is given, else the inferred one. -/
def maskWidth (p : PreparedVocabulary eos) (logitsVocabSize : Option Nat) : Except CompileError Nat :=
  match logitsVocabSize with
  | some width => if width < inferredWidth p then .error logitsVocabSizeTooSmall else .ok width
  | none => .ok (inferredWidth p)

def fromPrepared (d : Digests) (p : PreparedVocabulary eos) (logitsVocabSize : Option Nat) :
    Except CompileError (CanonicalVocabulary eos) :=
  maskWidth p logitsVocabSize >>= fun width =>
    if maxMaskTokens < width then .error maskWidthExceeded
    else IdIndex.build p >>= fun index => .ok ⟨p, index, width, d.vocab p.records eos⟩

/-- The bytes an id names. -/
def tokenBytes (v : CanonicalVocabulary eos) (id : Nat) : Option (List Byte) :=
  (v.idIndex.recordOf id).bind (fun ri => v.prepared.records[ri]?.map Prod.fst)

/-- `id` is an ordinary token: some record lists it. -/
def Ordinary (v : CanonicalVocabulary eos) (id : Nat) : Prop := ∃ r ∈ v.prepared.records, id ∈ r.2

def maskWidthWords (v : CanonicalVocabulary eos) : Nat := (v.maskVocabSize + 31) / 32

end CanonicalVocabulary

/-! ## What the reverse index holds -/

namespace IdIndex

/-- The index after the first records: `read` answers an id with the one record that lists it. -/
def Indexes (read : Nat → Option Nat) (done : List TokenRecord) : Prop :=
  ∀ id ri, read id = some ri ↔ ∃ r, done[ri]? = some r ∧ id ∈ r.2

theorem foldlM_claim_read {σ : Type} (claim : Nat → σ → Nat → Except CompileError σ) (read : σ → Nat → Option Nat)
    (inv : σ → Prop) (ri : Nat) (ok : Nat → Prop)
    (hclaim : ∀ t t' id, inv t → ok id → claim ri t id = .ok t' →
      inv t' ∧ (read t id = none ∨ read t id = some ri) ∧ read t' = Function.update (read t) id (some ri)) :
    ∀ (ids : List Nat) (t t' : σ), inv t → (∀ id ∈ ids, ok id) → ids.foldlM (claim ri) t = .ok t' →
      inv t' ∧ (∀ id ∈ ids, read t id = none ∨ read t id = some ri) ∧
        ∀ id, read t' id = if id ∈ ids then some ri else read t id
  | [], t, t', hi, _, h => by
    cases h
    simpa using hi
  | id :: ids, t, t', hi, hok, h => by
    rw [List.foldlM_cons] at h
    obtain ⟨t₁, h₁, h₂⟩ := bind_ok h
    obtain ⟨hi₁, hold, hnew⟩ := hclaim t t₁ id hi (hok id List.mem_cons_self) h₁
    obtain ⟨hi', hrest, hread⟩ := foldlM_claim_read claim read inv ri ok hclaim ids t₁ t' hi₁
      (fun j hj => hok j (List.mem_cons_of_mem _ hj)) h₂
    refine ⟨hi', ?_, ?_⟩
    · intro j hj
      rcases List.mem_cons.1 hj with rfl | hj
      · exact hold
      · have := hrest j hj
        rw [hnew] at this
        by_cases hji : j = id
        · subst hji; exact hold
        · rwa [Function.update_of_ne hji] at this
    · intro j
      rw [hread j, hnew]
      by_cases hj : j ∈ ids
      · simp [hj]
      · by_cases hji : j = id
        · subst hji; simp
        · simp [hj, hji]

/-- The id a record's claims stop at belongs to another record already. -/
theorem foldlM_claim_error {σ : Type} (claim : Nat → σ → Nat → Except CompileError σ) (read : σ → Nat → Option Nat)
    (inv : σ → Prop) (ri : Nat) (ok : Nat → Prop)
    (hclaim : ∀ t t' id, inv t → ok id → claim ri t id = .ok t' →
      inv t' ∧ (read t id = none ∨ read t id = some ri) ∧ read t' = Function.update (read t) id (some ri))
    (hrefuse : ∀ t id err, inv t → ok id → claim ri t id = .error err →
      err = ambiguousId ∧ ∃ other, read t id = some other ∧ other ≠ ri) {err : CompileError} :
    ∀ (ids : List Nat) (t : σ), inv t → (∀ id ∈ ids, ok id) → ids.foldlM (claim ri) t = .error err →
      err = ambiguousId ∧ ∃ id ∈ ids, ∃ other, read t id = some other ∧ other ≠ ri
  | [], _, _, _, h => by cases h
  | id :: ids, t, hi, hok, h => by
    rw [List.foldlM_cons] at h
    have hid := hok id List.mem_cons_self
    rcases bind_error h with h | ⟨t₁, h₁, h⟩
    · obtain ⟨herr, other, hread, hne⟩ := hrefuse t id err hi hid h
      exact ⟨herr, id, List.mem_cons_self, other, hread, hne⟩
    · obtain ⟨hi₁, -, hnew⟩ := hclaim t t₁ id hi hid h₁
      obtain ⟨herr, j, hj, other, hread, hne⟩ := foldlM_claim_error claim read inv ri ok hclaim hrefuse ids t₁ hi₁
        (fun j hj => hok j (List.mem_cons_of_mem _ hj)) h
      refine ⟨herr, j, List.mem_cons_of_mem _ hj, other, ?_, hne⟩
      rw [hnew] at hread
      by_cases hji : j = id
      · subst hji
        rw [Function.update_self] at hread
        exact absurd (Option.some.inj hread).symm hne
      · rwa [Function.update_of_ne hji] at hread

/-- Two records list one id. -/
def Shared (records : List TokenRecord) : Prop :=
  ∃ (i j : Nat) (r r' : TokenRecord), i < j ∧ records[i]? = some r ∧ records[j]? = some r' ∧ ∃ id, id ∈ r.2 ∧ id ∈ r'.2

/-- **The record loop leaves an exact index**, for any table whose `claim` reads and writes one id, and stops only at
an id two records list. -/
theorem claimAll_spec {σ : Type} (claim : Nat → σ → Nat → Except CompileError σ) (read : σ → Nat → Option Nat)
    (inv : σ → List TokenRecord → Prop) (ok : Nat → Prop)
    (hclaim : ∀ done t t' id, inv t done → ok id → claim done.length t id = .ok t' →
      inv t' done ∧ (read t id = none ∨ read t id = some done.length) ∧
        read t' = Function.update (read t) id (some done.length))
    (hrefuse : ∀ done t id err, inv t done → ok id → claim done.length t id = .error err →
      err = ambiguousId ∧ ∃ other, read t id = some other ∧ other ≠ done.length)
    (hdone : ∀ t done r, inv t done → r.2 ≠ [] → (∀ id ∈ r.2, ok id ∧ read t id = some done.length) →
      Indexes (read t) (done ++ [r]) → inv t (done ++ [r])) :
    ∀ (rest done : List TokenRecord) (t : σ), inv t done → Indexes (read t) done →
      (∀ r ∈ rest, r.2 ≠ [] ∧ ∀ id ∈ r.2, ok id) →
      (∀ t', (rest.zipIdx done.length).foldlM
        (fun t ri => checkedU32 recordIndexOverflow ri.2 >>= fun i => ri.1.2.foldlM (claim i) t) t = .ok t' →
        Indexes (read t') (done ++ rest)) ∧
      ∀ err, (rest.zipIdx done.length).foldlM
        (fun t ri => checkedU32 recordIndexOverflow ri.2 >>= fun i => ri.1.2.foldlM (claim i) t) t = .error err →
        err = recordIndexOverflow ∧ u32Size < (done ++ rest).length ∨ err = ambiguousId ∧ Shared (done ++ rest)
  | [], done, t, hi, hx, _ => by
    refine ⟨fun t' h => ?_, fun err h => by cases h⟩
    cases h
    rwa [List.append_nil]
  | r :: rest, done, t, hi, hx, hok => by
    rw [List.zipIdx_cons, List.foldlM_cons]
    obtain ⟨hrne, hrok⟩ := hok r List.mem_cons_self
    cases hi32 : checkedU32 recordIndexOverflow done.length with
    | error err =>
      refine ⟨fun t' h => (by cases h), fun err' h => .inl
        ⟨(Except.error.inj h).symm.trans (checkedU32_error hi32), ?_⟩⟩
      have hpast := checkedU32_error_le hi32
      rw [List.length_append, List.length_cons]
      omega
    | ok i =>
    obtain ⟨rfl, -⟩ := checkedU32_ok hi32
    show (∀ t', (r.2.foldlM (claim done.length) t >>= _) = .ok t' → _) ∧
      ∀ err, (r.2.foldlM (claim done.length) t >>= _) = .error err → _
    cases h₁ : r.2.foldlM (claim done.length) t with
    | error err =>
      refine ⟨fun t' h => (by cases h), fun err' h => .inr ?_⟩
      obtain ⟨herr, id, hid, other, hread, -⟩ := foldlM_claim_error claim read (fun t => inv t done) done.length ok
        (fun t t' id => hclaim done t t' id) (fun t id err => hrefuse done t id err) r.2 t hi hrok h₁
      obtain ⟨r', hr', hid'⟩ := (hx id other).1 hread
      have hlt := (List.getElem?_eq_some_iff.1 hr').1
      refine ⟨(Except.error.inj h).symm.trans herr, other, done.length, r', r, hlt, ?_, ?_, id, hid', hid⟩
      · rw [List.getElem?_append_left hlt, hr']
      · rw [List.getElem?_append_right (Nat.le_refl _), Nat.sub_self]
        rfl
    | ok t₁ =>
    obtain ⟨hi₁, hold, hread⟩ := foldlM_claim_read claim read (fun t => inv t done) done.length ok
      (fun t t' id => hclaim done t t' id) r.2 t t₁ hi hrok h₁
    have hx₁ : Indexes (read t₁) (done ++ [r]) := by
      intro id ri
      rw [hread id]
      by_cases hid : id ∈ r.2
      · -- the id was free or this record's own, and this record is the last one listed
        rw [if_pos hid]
        have hnone : read t id = none := by
          rcases hold id hid with h | h
          · exact h
          · obtain ⟨r', hr', -⟩ := (hx id done.length).1 h
            simp at hr'
        constructor
        · intro h
          cases h
          exact ⟨r, by simp, hid⟩
        · rintro ⟨r', hr', hid'⟩
          rcases Nat.lt_or_ge ri done.length with hlt | hge
          · rw [List.getElem?_append_left hlt] at hr'
            have := (hx id ri).2 ⟨r', hr', hid'⟩
            rw [hnone] at this
            cases this
          · rw [List.getElem?_append_right hge] at hr'
            have : ri - done.length = 0 := by
              have := (List.getElem?_eq_some_iff.1 hr').1
              simp only [List.length_cons, List.length_nil] at this
              omega
            have : ri = done.length := by omega
            rw [this]
      · rw [if_neg hid, hx id ri]
        constructor
        · rintro ⟨r', hr', hid'⟩
          have hlt := (List.getElem?_eq_some_iff.1 hr').1
          exact ⟨r', by rw [List.getElem?_append_left hlt]; exact hr', hid'⟩
        · rintro ⟨r', hr', hid'⟩
          rcases Nat.lt_or_ge ri done.length with hlt | hge
          · rw [List.getElem?_append_left hlt] at hr'
            exact ⟨r', hr', hid'⟩
          · rw [List.getElem?_append_right hge] at hr'
            cases hk : ri - done.length with
            | zero =>
              rw [hk] at hr'
              cases hr'
              exact absurd hid' hid
            | succ k =>
              rw [hk] at hr'
              simp at hr'
    have hi₂ : inv t₁ (done ++ [r]) := hdone t₁ done r hi₁ hrne
      (fun id hid => ⟨hrok id hid, by rw [hread id, if_pos hid]⟩) hx₁
    have hrest := claimAll_spec claim read inv ok hclaim hrefuse hdone rest (done ++ [r]) t₁ hi₂ hx₁
      (fun r' hr' => hok r' (List.mem_cons_of_mem _ hr'))
    rw [List.append_assoc, List.length_append] at hrest
    exact hrest

/-- The dense table has a slot for every id, and more slots than records, each record holding one of them. -/
structure DenseInv (size : Nat) (table : List Nat) (done : List TokenRecord) : Prop where
  len : table.length = size
  cap : size < absent
  all : ∀ ri, ri < done.length → ri ∈ table

theorem DenseInv.lt_absent {size : Nat} {table : List Nat} {done : List TokenRecord} (h : DenseInv size table done) :
    done.length < absent := by
  have hsub : List.range done.length ⊆ table := fun ri hri => h.all ri (List.mem_range.1 hri)
  have := (List.subperm_of_subset List.nodup_range hsub).length_le
  rw [List.length_range, h.len] at this
  have := h.cap
  omega

theorem readDense_eq_some {table : List Nat} {id ri : Nat} (hri : ri < absent) :
    readDense table id = some ri ↔ table[id]? = some ri := by
  unfold readDense
  cases h : table[id]? with
  | none => simp
  | some x =>
    simp only
    split
    · rename_i hx
      subst hx
      simp only [reduceCtorEq, Option.some.injEq, false_iff]
      omega
    · simp

theorem claimDense_ok {size : Nat} {table table' : List Nat} {done : List TokenRecord} {id : Nat}
    (hinv : DenseInv size table done) (hid : id < size) (h : claimDense done.length table id = .ok table') :
    DenseInv size table' done ∧ (readDense table id = none ∨ readDense table id = some done.length) ∧
      readDense table' = Function.update (readDense table) id (some done.length) := by
  have hlt := hinv.lt_absent
  have hin : id < table.length := by rw [hinv.len]; exact hid
  unfold claimDense at h
  split at h
  · cases h
  rename_i hfree
  cases h
  have hget : table[id]? = some table[id] := List.getElem?_eq_getElem hin
  rw [hget, Option.getD_some] at hfree
  have hold : table[id] = absent ∨ table[id] = done.length := by
    by_cases ha : table[id] = absent
    · exact Or.inl ha
    · exact Or.inr (by by_contra hc; exact hfree ⟨ha, hc⟩)
  refine ⟨⟨by rw [List.length_set, hinv.len], hinv.cap, ?_⟩, ?_, ?_⟩
  · intro ri hri
    obtain ⟨k, hk, hkri⟩ := List.mem_iff_getElem.1 (hinv.all ri hri)
    have hkid : id ≠ k := by
      rintro rfl
      rcases hold with ho | ho <;> omega
    exact List.mem_iff_getElem.2 ⟨k, by simpa using hk, by rw [List.getElem_set_ne hkid]; exact hkri⟩
  · rcases hold with ho | ho
    · left
      simp [readDense, hget, ho]
    · right
      rw [readDense_eq_some hlt, hget, ho]
  · funext j
    by_cases hj : j = id
    · subst hj
      rw [Function.update_self, readDense_eq_some hlt, List.getElem?_set_self hin]
    · rw [Function.update_of_ne hj]
      unfold readDense
      rw [List.getElem?_set_ne (fun h => hj h.symm)]

theorem claimSparse_ok {map map' : Nat → Option Nat} {done : List TokenRecord} {id : Nat}
    (h : claimSparse done.length map id = .ok map') :
    (map id = none ∨ map id = some done.length) ∧ map' = Function.update map id (some done.length) := by
  unfold claimSparse at h
  cases hm : map id with
  | none =>
    rw [hm] at h
    cases h
    exact ⟨Or.inl rfl, rfl⟩
  | some x =>
    rw [hm] at h
    simp only at h
    split at h
    · cases h
    · rename_i hx
      cases h
      have : x = done.length := by simpa using hx
      exact ⟨Or.inr (by rw [this]), rfl⟩

theorem claimDense_error {table : List Nat} {ri id : Nat} {err : CompileError}
    (h : claimDense ri table id = .error err) :
    err = ambiguousId ∧ ∃ other, readDense table id = some other ∧ other ≠ ri := by
  unfold claimDense at h
  split at h
  · rename_i hclaimed
    refine ⟨(Except.error.inj h).symm, ?_⟩
    cases hget : table[id]? with
    | none =>
      rw [hget, Option.getD_none] at hclaimed
      exact absurd rfl hclaimed.1
    | some other =>
      rw [hget, Option.getD_some] at hclaimed
      exact ⟨other, by simp [readDense, hget, hclaimed.1], hclaimed.2⟩
  · cases h

theorem claimSparse_error {map : Nat → Option Nat} {ri id : Nat} {err : CompileError}
    (h : claimSparse ri map id = .error err) :
    err = ambiguousId ∧ ∃ other, map id = some other ∧ other ≠ ri := by
  unfold claimSparse at h
  split at h
  · rename_i other hother
    split at h
    · rename_i hne
      exact ⟨(Except.error.inj h).symm, other, hother, hne⟩
    · cases h
  · cases h

theorem claimAll_dense {eos maxId : Nat} (p : PreparedVocabulary eos)
    (hle : ∀ r ∈ p.records, ∀ id ∈ r.2, id < maxId + 1) (hcap : maxId + 1 < absent) :
    (∀ t, claimAll claimDense p.records (List.replicate (maxId + 1) absent) = .ok t → Indexes (readDense t) p.records) ∧
    ∀ err, claimAll claimDense p.records (List.replicate (maxId + 1) absent) = .error err →
      err = recordIndexOverflow ∧ u32Size < p.records.length ∨ err = ambiguousId ∧ Shared p.records := by
  refine claimAll_spec claimDense readDense (DenseInv (maxId + 1)) (· < maxId + 1)
    (fun done t t' id hi hid hc => claimDense_ok hi hid hc) (fun done t id err _ _ hc => claimDense_error hc) ?_
    p.records [] _ ⟨by simp, hcap, fun ri hri => by simp at hri⟩ ?_ (fun r hr => ⟨p.nonEmptyIds r hr, hle r hr⟩)
  · intro t done r hi hne hown _
    refine ⟨hi.len, hi.cap, fun ri hri => ?_⟩
    rcases Nat.lt_or_ge ri done.length with hlt | hge
    · exact hi.all ri hlt
    · have hr : ri = done.length := by
        simp only [List.length_append, List.length_cons, List.length_nil] at hri
        omega
      obtain ⟨id, hid⟩ := List.exists_mem_of_ne_nil _ hne
      have hread := (hown id hid).2
      rw [readDense_eq_some hi.lt_absent] at hread
      rw [hr]
      exact List.mem_of_getElem? hread
  · intro id ri
    constructor
    · intro h
      unfold readDense at h
      rw [List.getElem?_replicate] at h
      split at h
      · cases h
      · rename_i x hx
        split at hx
        · cases hx
          simp at h
        · cases hx
    · rintro ⟨r, hr, -⟩
      simp at hr

theorem claimAll_sparse {eos : Nat} (p : PreparedVocabulary eos) :
    (∀ m, claimAll claimSparse p.records (fun _ => none) = .ok m → Indexes m p.records) ∧
    ∀ err, claimAll claimSparse p.records (fun _ => none) = .error err →
      err = recordIndexOverflow ∧ u32Size < p.records.length ∨ err = ambiguousId ∧ Shared p.records :=
  claimAll_spec claimSparse id (fun _ _ => True) (fun _ => True)
    (fun _ _ _ _ _ _ hc => ⟨trivial, claimSparse_ok hc⟩) (fun _ _ _ _ _ _ hc => claimSparse_error hc)
    (fun _ _ _ _ _ _ _ => trivial) p.records [] _ trivial (fun id ri => by simp)
    (fun r hr => ⟨p.nonEmptyIds r hr, fun _ _ => trivial⟩)

theorem le_ordinaryMax {eos maxId : Nat} {p : PreparedVocabulary eos} (hmax : p.ordinaryMax = some maxId) :
    ∀ r ∈ p.records, ∀ id ∈ r.2, id < maxId + 1 := by
  intro r hr id hid
  have hm := (List.max?_eq_some_iff.1 hmax).2 id (List.mem_flatMap.2 ⟨r, hr, hid⟩)
  omega

/-- **The reverse index is exact, dense or sparse**: it answers an id with the one record that lists it. -/
theorem build_indexes {eos : Nat} {p : PreparedVocabulary eos} {index : IdIndex}
    (hcap : ∀ m, p.ordinaryMax = some m → m + 1 < absent) (h : build p = .ok index) :
    Indexes index.recordOf p.records := by
  unfold build at h
  cases hmax : p.ordinaryMax with
  | none =>
    rw [hmax] at h
    cases h
    have hempty : p.records.flatMap Prod.snd = [] := List.max?_eq_none_iff.1 hmax
    intro id ri
    constructor
    · intro h
      simp [recordOf, readDense] at h
    · rintro ⟨r, hr, hid⟩
      have : id ∈ p.records.flatMap Prod.snd := List.mem_flatMap.2 ⟨r, List.mem_of_getElem? hr, hid⟩
      rw [hempty] at this
      cases this
  | some maxId =>
    rw [hmax] at h
    simp only at h
    split at h
    · obtain ⟨t, ht, h⟩ := bind_ok h
      cases h
      exact (claimAll_dense p (le_ordinaryMax hmax) (hcap maxId hmax)).1 t ht
    · obtain ⟨m, hm, h⟩ := bind_ok h
      cases h
      exact (claimAll_sparse p).1 m hm

/-- **The index is refused only where two records list one id**, or there are too many records to number. -/
theorem build_error {eos : Nat} {p : PreparedVocabulary eos} {err : CompileError}
    (hcap : ∀ m, p.ordinaryMax = some m → m + 1 < absent) (h : build p = .error err) :
    err = recordIndexOverflow ∧ u32Size < p.records.length ∨ err = ambiguousId ∧ Shared p.records := by
  unfold build at h
  cases hmax : p.ordinaryMax with
  | none =>
    rw [hmax] at h
    cases h
  | some maxId =>
    rw [hmax] at h
    simp only at h
    split at h
    · rcases bind_error h with h | ⟨_, -, h⟩
      · exact (claimAll_dense p (le_ordinaryMax hmax) (hcap maxId hmax)).2 err h
      · cases h
    · rcases bind_error h with h | ⟨_, -, h⟩
      · exact (claimAll_sparse p).2 err h
      · cases h

end IdIndex

namespace CanonicalVocabulary

variable {eos : Nat}

/-- What a successful build leaves: the prepared records, a mask that covers every id, and an exact reverse index. -/
structure Bound (d : Digests) (p : PreparedVocabulary eos) (v : CanonicalVocabulary eos) : Prop where
  prepared : v.prepared = p
  fingerprint : v.fingerprint = d.vocab p.records eos
  width : v.maskVocabSize ≤ maxMaskTokens
  covers : ∀ r ∈ p.records, ∀ id ∈ r.2, id < v.maskVocabSize
  indexes : IdIndex.Indexes v.idIndex.recordOf p.records

theorem fromPrepared_ok {d : Digests} {p : PreparedVocabulary eos} {logits : Option Nat} {v : CanonicalVocabulary eos}
    (h : fromPrepared d p logits = .ok v) : Bound d p v := by
  unfold fromPrepared at h
  obtain ⟨width, hw, h⟩ := bind_ok h
  split at h
  · cases h
  rename_i hcap
  obtain ⟨index, hidx, h⟩ := bind_ok h
  cases h
  have hinf : inferredWidth p ≤ width := by
    unfold maskWidth at hw
    cases logits with
    | none => cases hw; exact Nat.le_refl _
    | some w =>
      simp only at hw
      split at hw
      · cases hw
      · cases hw
        omega
  have hmax : ∀ m, p.ordinaryMax = some m → m + 1 ≤ width := by
    intro m hm
    unfold inferredWidth at hinf
    rw [hm] at hinf
    simp only at hinf
    omega
  refine ⟨rfl, rfl, by simpa using hcap, ?_, ?_⟩
  · intro r hr id hid
    have hmem : id ∈ p.records.flatMap Prod.snd := List.mem_flatMap.2 ⟨r, hr, hid⟩
    cases hm : p.ordinaryMax with
    | none =>
      have := List.max?_eq_none_iff.1 hm
      rw [this] at hmem
      cases hmem
    | some m =>
      have h1 := (List.max?_eq_some_iff.1 hm).2 id hmem
      have h2 := hmax m hm
      simp only
      omega
  · refine IdIndex.build_indexes (fun m hm => ?_) hidx
    have h1 := hmax m hm
    unfold maxMaskTokens at hcap
    unfold absent u32Size
    omega

/-- **An id names the bytes of the record that lists it**, and of no other. -/
theorem tokenBytes_iff {d : Digests} {p : PreparedVocabulary eos} {v : CanonicalVocabulary eos} (hv : Bound d p v)
    (id : Nat) (bytes : List Byte) : v.tokenBytes id = some bytes ↔ ∃ r ∈ p.records, r.1 = bytes ∧ id ∈ r.2 := by
  unfold tokenBytes
  rw [hv.prepared]
  constructor
  · intro h
    obtain ⟨ri, hri, hr⟩ := Option.bind_eq_some_iff.1 h
    obtain ⟨r, hget, rfl⟩ := Option.map_eq_some_iff.1 hr
    obtain ⟨r', hget', hid⟩ := (hv.indexes id ri).1 hri
    rw [hget] at hget'
    cases hget'
    exact ⟨r, List.mem_of_getElem? hget, rfl, hid⟩
  · rintro ⟨r, hr, rfl, hid⟩
    obtain ⟨ri, hget⟩ := List.mem_iff_getElem?.1 hr
    rw [(hv.indexes id ri).2 ⟨r, hget, hid⟩]
    simp [hget]

/-- One id names one byte string. -/
theorem record_unique {d : Digests} {p : PreparedVocabulary eos} {v : CanonicalVocabulary eos} (hv : Bound d p v)
    {r r' : TokenRecord} {id : Nat} (hr : r ∈ p.records) (hr' : r' ∈ p.records) (h : id ∈ r.2) (h' : id ∈ r'.2) :
    r.1 = r'.1 := by
  have h1 := (tokenBytes_iff hv id r.1).2 ⟨r, hr, rfl, h⟩
  have h2 := (tokenBytes_iff hv id r'.1).2 ⟨r', hr', rfl, h'⟩
  rw [h1] at h2
  exact Option.some.inj h2

end CanonicalVocabulary
end MaskForge
