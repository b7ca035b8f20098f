import MaskForge.Vocab.Ingest
import MaskForge.Lib.SortedTable
/-!
# IngestTable — the token map and the loop over sorted keys leave the table of what they are given

Deduplicated ids, merged entries, records pushed end to end, and keys sorted by their padded prefix: each part of a
route either leaves the table of its listing (`SortedTable.Tabulates`) or says which key it could not list.
-/
namespace MaskForge

open CountingSort (slice)
open SortedTable (HasKey Listed Tabulates hasKey_append listed_append hasKey_perm listed_perm lt_of_mem_dropWhile)

/-! ## The token map -/

theorem dedupShort_spec : ∀ (ids kept : List Nat), kept.Nodup →
    (dedupShort kept ids).Nodup ∧ ∀ id, id ∈ dedupShort kept ids ↔ id ∈ kept ∨ id ∈ ids
  | [], kept, h => ⟨h, fun id => by simp [dedupShort]⟩
  | x :: ids, kept, h => by
    unfold dedupShort
    split
    · rename_i hx
      have hx : x ∈ kept := by simpa using hx
      obtain ⟨hnodup, hmem⟩ := dedupShort_spec ids kept h
      refine ⟨hnodup, fun id => ?_⟩
      rw [hmem, List.mem_cons]
      constructor
      · tauto
      · rintro (h | rfl | h)
        exacts [.inl h, .inl hx, .inr h]
    · rename_i hx
      have hx : x ∉ kept := by simpa using hx
      obtain ⟨hnodup, hmem⟩ := dedupShort_spec ids (kept ++ [x]) (h.append (List.nodup_singleton x) (by simpa using hx))
      refine ⟨hnodup, fun id => ?_⟩
      rw [hmem, List.mem_append, List.mem_singleton, List.mem_cons, or_assoc]

theorem retainUnseen_spec : ∀ (ids seen : List Nat),
    (retainUnseen seen ids).Nodup ∧ ∀ id, id ∈ retainUnseen seen ids ↔ id ∈ ids ∧ id ∉ seen
  | [], seen => ⟨List.nodup_nil, fun id => by simp [retainUnseen]⟩
  | x :: ids, seen => by
    unfold retainUnseen
    split
    · rename_i hx
      have hx : x ∈ seen := by simpa using hx
      obtain ⟨hnodup, hmem⟩ := retainUnseen_spec ids seen
      refine ⟨hnodup, fun id => ?_⟩
      rw [hmem, List.mem_cons]
      constructor
      · tauto
      · rintro ⟨rfl | h, hid⟩
        exacts [absurd hx hid, ⟨h, hid⟩]
    · rename_i hx
      have hx : x ∉ seen := by simpa using hx
      obtain ⟨hnodup, hmem⟩ := retainUnseen_spec ids (x :: seen)
      refine ⟨List.nodup_cons.2 ⟨fun h => ((hmem x).1 h).2 List.mem_cons_self, hnodup⟩, fun id => ?_⟩
      rw [List.mem_cons, hmem, List.mem_cons, List.mem_cons]
      by_cases hid : id = x
      · subst hid
        exact iff_of_true (.inl rfl) ⟨.inl rfl, hx⟩
      · simp [hid]

/-- **Every arm of the deduplication keeps each id once.** -/
theorem dedupIds_spec (ids : List Nat) : (dedupIds ids).Nodup ∧ ∀ id, id ∈ dedupIds ids ↔ id ∈ ids := by
  unfold dedupIds
  split
  · rename_i hlen
    refine ⟨?_, fun _ => Iff.rfl⟩
    rcases ids with _ | ⟨x, _ | ⟨y, ids⟩⟩
    · exact List.nodup_nil
    · exact List.nodup_singleton x
    · simp at hlen
  split
  · obtain ⟨hnodup, hmem⟩ := dedupShort_spec (ids.drop 1) (ids.take 1) (by
      rcases ids with _ | ⟨x, ids⟩
      · exact List.nodup_nil
      · exact List.nodup_singleton x)
    refine ⟨hnodup, fun id => ?_⟩
    rw [hmem, ← List.mem_append, List.take_append_drop]
  · obtain ⟨hnodup, hmem⟩ := retainUnseen_spec ids []
    exact ⟨hnodup, fun id => by simpa using hmem id⟩

theorem mergeEntry_spec (entries : List TokenRecord) (item : TokenRecord) :
    (∀ k, HasKey (mergeEntry entries item) k ↔ HasKey (entries ++ [item]) k) ∧
    ∀ k v, Listed (mergeEntry entries item) k v ↔ Listed (entries ++ [item]) k v := by
  unfold mergeEntry
  split
  · rename_i hocc
    have hkey : ∀ e : TokenRecord, (if e.1 = item.1 then (e.1, e.2 ++ item.2) else e).1 = e.1 := by
      intro e
      split <;> rfl
    obtain ⟨e₀, he₀, hkey₀⟩ := List.mem_map.1 hocc
    constructor
    · intro k
      rw [hasKey_append]
      constructor
      · rintro ⟨e', he', rfl⟩
        obtain ⟨e, he, rfl⟩ := List.mem_map.1 he'
        exact .inl ⟨e, he, (hkey e).symm⟩
      · rintro (⟨e, he, rfl⟩ | ⟨e, he, rfl⟩)
        · exact ⟨_, List.mem_map.2 ⟨e, he, rfl⟩, hkey e⟩
        · rw [List.mem_singleton.1 he]
          exact ⟨_, List.mem_map.2 ⟨e₀, he₀, rfl⟩, (hkey e₀).trans hkey₀⟩
    · intro k v
      rw [listed_append]
      constructor
      · rintro ⟨e', he', rfl, hv⟩
        obtain ⟨e, he, rfl⟩ := List.mem_map.1 he'
        rw [hkey]
        split at hv
        · rename_i heq
          rcases List.mem_append.1 hv with hv | hv
          · exact .inl ⟨e, he, rfl, hv⟩
          · exact .inr ⟨item, List.mem_singleton_self _, heq.symm, hv⟩
        · exact .inl ⟨e, he, rfl, hv⟩
      · rintro (⟨e, he, rfl, hv⟩ | ⟨e, he, rfl, hv⟩)
        · refine ⟨_, List.mem_map.2 ⟨e, he, rfl⟩, hkey e, ?_⟩
          split
          · exact List.mem_append_left _ hv
          · exact hv
        · rw [List.mem_singleton.1 he] at hv ⊢
          refine ⟨_, List.mem_map.2 ⟨e₀, he₀, rfl⟩, (hkey e₀).trans hkey₀, ?_⟩
          rw [if_pos hkey₀]
          exact List.mem_append_right _ hv
  · exact ⟨fun _ => Iff.rfl, fun _ _ => Iff.rfl⟩

/-- **The token map lists what the items list.** -/
theorem tokenMap_spec (items : List TokenRecord) : (∀ k, HasKey (tokenMap items).entries k ↔ HasKey items k) ∧
    ∀ k v, Listed (tokenMap items).entries k v ↔ Listed items k v := by
  have hrun : ∀ (rest : List TokenRecord) (m : TokenMap), (∀ k, HasKey (rest.foldl TokenMap.merge m).entries k ↔
      HasKey (m.entries ++ rest) k) ∧ ∀ k v, Listed (rest.foldl TokenMap.merge m).entries k v ↔
      Listed (m.entries ++ rest) k v := by
    intro rest
    induction rest with
    | nil =>
      intro m
      rw [List.append_nil]
      exact ⟨fun _ => Iff.rfl, fun _ _ => Iff.rfl⟩
    | cons item rest ih =>
      intro m
      obtain ⟨hhas, hlists⟩ := ih (m.merge item)
      obtain ⟨hhas', hlists'⟩ := mergeEntry_spec m.entries item
      refine ⟨fun k => ?_, fun k v => ?_⟩
      · rw [List.foldl_cons, hhas, hasKey_append, List.append_cons, hasKey_append]
        exact or_congr_left (hhas' k)
      · rw [List.foldl_cons, hlists, listed_append, List.append_cons, listed_append]
        exact or_congr_left (hlists' k v)
  exact hrun items ⟨[], List.nodup_nil⟩

/-! ## The arrays -/

namespace PreparedArrays

/-- The ranges of the records lie in the arrays. -/
def InRange (a : PreparedArrays) : Prop := ∀ r ∈ a.records, r.byteEnd ≤ a.blob.length ∧ r.idEnd ≤ a.ids.length

theorem slice_append {α : Type} {l : List α} (m : List α) {lo hi : Nat} (h : hi ≤ l.length) :
    slice (l ++ m) lo hi = slice l lo hi := by
  apply List.ext_getElem?
  intro k
  rw [CountingSort.getElem?_slice, CountingSort.getElem?_slice]
  split
  · rw [List.getElem?_append_left (by omega)]
  · rfl

theorem slice_appended {α : Type} (l m : List α) : slice (l ++ m) l.length (l ++ m).length = m := by
  unfold slice
  rw [List.drop_left, List.length_append, Nat.add_sub_cancel_left, List.take_length]

/-- **A pushed record is read back, and the records before it too.** -/
theorem pushRecord_ok {a a' : PreparedArrays} {bytes : List Byte} {ids : List Nat} (ha : a.InRange)
    (h : pushRecord a bytes ids = .ok a') : a'.InRange ∧ a'.iter = a.iter ++ [(bytes, ids)] := by
  unfold pushRecord at h
  obtain ⟨byteStart, hbs, h⟩ := bind_ok h
  obtain ⟨byteEnd, hbe, h⟩ := bind_ok h
  obtain ⟨idStart, his, h⟩ := bind_ok h
  obtain ⟨idEnd, hie, h⟩ := bind_ok h
  cases h
  obtain ⟨rfl, -⟩ := checkedU32_ok hbs
  obtain ⟨rfl, -⟩ := checkedU32_ok hbe
  obtain ⟨rfl, -⟩ := checkedU32_ok his
  obtain ⟨rfl, -⟩ := checkedU32_ok hie
  constructor
  · intro r hr
    rcases List.mem_append.1 hr with hr | hr
    · obtain ⟨hb, hi⟩ := ha r hr
      rw [List.length_append, List.length_append]
      exact ⟨by omega, by omega⟩
    · rw [List.mem_singleton.1 hr]
      exact ⟨Nat.le_refl _, Nat.le_refl _⟩
  · unfold iter
    rw [List.map_append, List.map_singleton, slice_appended, slice_appended]
    refine congrArg (· ++ _) (List.map_congr_left fun r hr => ?_)
    obtain ⟨hb, hi⟩ := ha r hr
    rw [slice_append _ hb, slice_append _ hi]

/-- The bytes of all keys of a listing, and the ids under them. -/
def keyTotal (rows : List TokenRecord) : Nat := (rows.map fun r => r.1.length).sum

def idTotal (rows : List TokenRecord) : Nat := (rows.map fun r => r.2.length).sum

theorem keyTotal_cons (r : TokenRecord) (rows : List TokenRecord) :
    keyTotal (r :: rows) = r.1.length + keyTotal rows := rfl

theorem idTotal_cons (r : TokenRecord) (rows : List TokenRecord) :
    idTotal (r :: rows) = r.2.length + idTotal rows := rfl

theorem keyTotal_append (rows rows' : List TokenRecord) :
    keyTotal (rows ++ rows') = keyTotal rows + keyTotal rows' := by
  rw [keyTotal, List.map_append, List.sum_append]
  rfl

theorem idTotal_append (rows rows' : List TokenRecord) : idTotal (rows ++ rows') = idTotal rows + idTotal rows' := by
  rw [idTotal, List.map_append, List.sum_append]
  rfl

theorem totals_perm {rows rows' : List TokenRecord} (h : rows.Perm rows') :
    keyTotal rows = keyTotal rows' ∧ idTotal rows = idTotal rows' :=
  ⟨(h.map _).sum_eq, (h.map _).sum_eq⟩

theorem pushRecord_grows {a a' : PreparedArrays} {bytes : List Byte} {ids : List Nat}
    (h : pushRecord a bytes ids = .ok a') :
    a'.blob.length = a.blob.length + bytes.length ∧ a'.ids.length = a.ids.length + ids.length := by
  unfold pushRecord at h
  obtain ⟨_, -, h⟩ := bind_ok h
  obtain ⟨_, -, h⟩ := bind_ok h
  obtain ⟨_, -, h⟩ := bind_ok h
  obtain ⟨_, -, h⟩ := bind_ok h
  cases h
  exact ⟨List.length_append, List.length_append⟩

/-- A record is refused where it takes one of the arrays past the addressable range. -/
theorem pushRecord_error {a : PreparedArrays} {bytes : List Byte} {ids : List Nat} {err : CompileError}
    (h : pushRecord a bytes ids = .error err) :
    u32Size ≤ a.blob.length + bytes.length ∨ u32Size ≤ a.ids.length + ids.length := by
  unfold pushRecord at h
  rcases bind_error h with h | ⟨_, -, h⟩
  · exact .inl (Nat.le_add_right_of_le (checkedU32_error_le h))
  rcases bind_error h with h | ⟨_, -, h⟩
  · exact .inl (List.length_append ▸ checkedU32_error_le h)
  rcases bind_error h with h | ⟨_, -, h⟩
  · exact .inr (Nat.le_add_right_of_le (checkedU32_error_le h))
  rcases bind_error h with h | ⟨_, -, h⟩
  · exact .inr (List.length_append ▸ checkedU32_error_le h)
  · cases h

theorem inRange_empty : empty.InRange := fun _ h => absurd h List.not_mem_nil

theorem checkAddressableTotals_ok {b i : Nat} {caps : Nat × Nat} (h : checkAddressableTotals b i = .ok caps) :
    b < u32Size ∧ i < u32Size := by
  unfold checkAddressableTotals at h
  obtain ⟨_, hb, h⟩ := bind_ok h
  obtain ⟨_, hi, h⟩ := bind_ok h
  exact ⟨(checkedU32_ok hb).2, (checkedU32_ok hi).2⟩

theorem checkAddressableTotals_error {b i : Nat} {err : CompileError} (h : checkAddressableTotals b i = .error err) :
    err = blobOverflow ∧ u32Size ≤ b ∨ err = idsOverflow ∧ u32Size ≤ i := by
  unfold checkAddressableTotals at h
  rcases bind_error h with h | ⟨_, -, h⟩
  · exact .inl ⟨checkedU32_error h, checkedU32_error_le h⟩
  rcases bind_error h with h | ⟨_, -, h⟩
  · exact .inr ⟨checkedU32_error h, checkedU32_error_le h⟩
  · cases h

/-! ### Sorted pairs -/

theorem checkedTotal_error {err err' : CompileError} : ∀ (lengths : List Nat) (acc : Nat),
    lengths.foldlM (fun acc n => if acc + n ≤ usizeMax then Except.ok (acc + n) else .error err) acc = .error err' →
      err' = err ∧ usizeMax < acc + lengths.sum
  | [], _, h => by cases h
  | n :: lengths, acc, h => by
    rw [List.foldlM_cons] at h
    rw [List.sum_cons, ← Nat.add_assoc]
    rcases bind_error h with h | ⟨acc', hacc, h⟩
    · split at h
      · cases h
      · exact ⟨(Except.error.inj h).symm, by omega⟩
    · split at hacc
      · cases hacc
        exact checkedTotal_error lengths _ h
      · cases hacc

theorem checkedTotal_ok {err : CompileError} {total : Nat} : ∀ (lengths : List Nat) (acc : Nat),
    lengths.foldlM (fun acc n => if acc + n ≤ usizeMax then Except.ok (acc + n) else .error err) acc = .ok total →
      total = acc + lengths.sum
  | [], _, h => by
    cases h
    rfl
  | n :: lengths, acc, h => by
    rw [List.foldlM_cons] at h
    rw [List.sum_cons, ← Nat.add_assoc]
    obtain ⟨acc', hacc, h⟩ := bind_ok h
    split at hacc
    · cases hacc
      exact checkedTotal_ok lengths _ h
    · cases hacc

theorem pushAll_ok (f : TokenRecord → List Nat) : ∀ (pairs : List TokenRecord) {a a' : PreparedArrays}, a.InRange →
    pairs.foldlM (fun a p => pushRecord a p.1 (f p)) a = .ok a' → a'.iter = a.iter ++ pairs.map fun p => (p.1, f p)
  | [], a, a', _, h => by
    cases h
    rw [List.map_nil, List.append_nil]
  | p :: pairs, a, a', ha, h => by
    rw [List.foldlM_cons] at h
    obtain ⟨a₁, h₁, h⟩ := bind_ok h
    obtain ⟨ha₁, hiter⟩ := pushRecord_ok ha h₁
    rw [pushAll_ok f pairs ha₁ h, hiter, List.append_assoc]
    rfl

theorem pushAll_error {f : TokenRecord → List Nat} (hf : ∀ p, (f p).length = p.2.length) {err : CompileError} :
    ∀ (pairs : List TokenRecord) {a : PreparedArrays}, pairs.foldlM (fun a p => pushRecord a p.1 (f p)) a = .error err →
      u32Size ≤ a.blob.length + keyTotal pairs ∨ u32Size ≤ a.ids.length + idTotal pairs
  | [], _, h => by cases h
  | p :: pairs, a, h => by
    rw [List.foldlM_cons] at h
    rw [keyTotal_cons, idTotal_cons]
    rcases bind_error h with h | ⟨a₁, ha₁, h⟩
    · have hpast := pushRecord_error h
      rw [hf] at hpast
      omega
    · obtain ⟨hblob, hids⟩ := pushRecord_grows ha₁
      have hrest := pushAll_error hf pairs h
      rw [hf] at hids
      omega

theorem fromSortedPairs_ok {pairs : List TokenRecord} {a : PreparedArrays} (h : fromSortedPairs pairs = .ok a) :
    a.iter = pairs.map fun p => (p.1, p.2.mergeSort fun x y => decide (x ≤ y)) := by
  unfold fromSortedPairs at h
  obtain ⟨_, -, h⟩ := bind_ok h
  obtain ⟨_, -, h⟩ := bind_ok h
  obtain ⟨_, -, h⟩ := bind_ok h
  exact pushAll_ok _ pairs inRange_empty h

/-- **Sorted pairs are refused for their lengths alone**, and with the error of the total that is too long. -/
theorem fromSortedPairs_error {pairs : List TokenRecord} {err : CompileError} (h : fromSortedPairs pairs = .error err) :
    err = overflow "prepared vocabulary byte total overflows" ∧ usizeMax < keyTotal pairs ∨
    err = overflow "prepared vocabulary id total overflows" ∧ usizeMax < idTotal pairs ∨
    err = blobOverflow ∧ u32Size ≤ keyTotal pairs ∨ err = idsOverflow ∧ u32Size ≤ idTotal pairs := by
  unfold fromSortedPairs at h
  rcases bind_error h with h | ⟨bytes, hbytes, h⟩
  · obtain ⟨rfl, hpast⟩ := checkedTotal_error _ _ h
    rw [Nat.zero_add] at hpast
    exact .inl ⟨rfl, hpast⟩
  rcases bind_error h with h | ⟨ids, hids, h⟩
  · obtain ⟨rfl, hpast⟩ := checkedTotal_error _ _ h
    rw [Nat.zero_add] at hpast
    exact .inr (.inl ⟨rfl, hpast⟩)
  have hb : bytes = keyTotal pairs := by
    rw [checkedTotal_ok _ _ hbytes, Nat.zero_add]
    rfl
  have hi : ids = idTotal pairs := by
    rw [checkedTotal_ok _ _ hids, Nat.zero_add]
    rfl
  rw [hb, hi] at h
  rcases bind_error h with h | ⟨caps, hcaps, h⟩
  · exact .inr (.inr (checkAddressableTotals_error h))
  · obtain ⟨hblob, hid⟩ := checkAddressableTotals_ok hcaps
    have hpast := pushAll_error (fun p => List.length_mergeSort p.2) pairs h
    simp only [empty, List.length_nil] at hpast
    omega

theorem mergeSort_ascending {ids : List Nat} (h : ids.Nodup) :
    (ids.mergeSort fun x y => decide (x ≤ y)).Pairwise (· < ·) := by
  have hle := @List.pairwise_mergeSort _ (fun a b : Nat => decide (a ≤ b))
    (fun a b c => by simpa using Nat.le_trans) (fun a b => by simpa using Nat.le_total a b) ids
  have hne := (List.mergeSort_perm ids fun x y => decide (x ≤ y)).nodup_iff.2 h
  exact (hle.and hne).imp fun hab => Nat.lt_of_le_of_ne (of_decide_eq_true hab.1) hab.2

/-- **A map with each id once under a key is built into its table.** -/
theorem build_ok {vocab : Vocabulary} (hids : ∀ t ∈ vocab.tokens.entries, t.2.Nodup) {a : PreparedArrays}
    (h : build vocab = .ok a) : Tabulates a.iter vocab.tokens.entries := by
  have hperm := List.mergeSort_perm vocab.tokens.entries fun a b => decide (a.1 ≤ b.1)
  have hkeys : ((vocab.tokens.entries.mergeSort fun a b => decide (a.1 ≤ b.1)).map Prod.fst).Nodup :=
    (hperm.map Prod.fst).nodup_iff.2 vocab.tokens.keys
  have hsorted := @List.pairwise_mergeSort _ (fun a b : TokenRecord => decide (a.1 ≤ b.1))
    (fun a b c => by simpa using List.le_trans) (fun a b => by simpa using List.le_total a.1 b.1) vocab.tokens.entries
  rw [fromSortedPairs_ok h]
  refine ⟨?_, ?_, fun k => ?_, fun k v => ?_⟩
  · refine List.pairwise_map.2 ((hsorted.and (List.pairwise_map.1 hkeys)).imp fun hab => ?_)
    exact (List.le_iff_lt_or_eq.1 (of_decide_eq_true hab.1)).resolve_right hab.2
  · intro r hr
    obtain ⟨t, ht, rfl⟩ := List.mem_map.1 hr
    exact mergeSort_ascending (hids t (hperm.mem_iff.1 ht))
  · rw [← hasKey_perm hperm]
    unfold HasKey
    simp only [List.mem_map, exists_exists_and_eq_and]
  · rw [← listed_perm hperm]
    unfold Listed
    simp only [List.mem_map, exists_exists_and_eq_and, List.mem_mergeSort]

/-! ### The order of the packed keys -/

/-- The first `n` bytes, padded with zeros, read big-endian. -/
def padded : Nat → List Byte → Nat
  | 0, _ => 0
  | _ + 1, [] => 0
  | n + 1, b :: bytes => b.toNat * 256 ^ n + padded n bytes

theorem padded_lt : ∀ (n : Nat) (bytes : List Byte), padded n bytes < 256 ^ n
  | 0, _ => by simp [padded]
  | n + 1, [] => by simp [padded]
  | n + 1, b :: bytes => by
    have hb := b.toNat_lt
    have hrest := padded_lt n bytes
    have hmul : b.toNat * 256 ^ n + 256 ^ n ≤ 256 * 256 ^ n := by
      rw [← Nat.succ_mul]
      exact Nat.mul_le_mul_right _ hb
    rw [padded, Nat.pow_succ, Nat.mul_comm (256 ^ n)]
    omega

/-- Where the padded prefixes differ the keys do, and in the same order: zeros do not pass any byte. -/
theorem lt_of_padded_lt : ∀ (n : Nat) {a b : List Byte}, padded n a < padded n b → a < b
  | 0, _, _, h => absurd h (Nat.lt_irrefl 0)
  | n + 1, [], [], h => absurd h (Nat.lt_irrefl 0)
  | n + 1, [], b :: bs, _ => List.nil_lt_cons b bs
  | n + 1, a :: as, [], h => absurd h (Nat.not_lt_zero _)
  | n + 1, a :: as, b :: bs, h => by
    have ha := padded_lt n as
    have hb := padded_lt n bs
    rw [padded, padded] at h
    rw [List.cons_lt_cons_iff]
    rcases Nat.lt_trichotomy a.toNat b.toNat with hab | hab | hab
    · exact .inl (UInt8.lt_iff_toNat_lt.2 hab)
    · refine .inr ⟨UInt8.toNat_inj.1 hab, lt_of_padded_lt n ?_⟩
      rw [hab] at h
      omega
    · have hmul : b.toNat * 256 ^ n + 256 ^ n ≤ a.toNat * 256 ^ n := by
        rw [← Nat.succ_mul]
        exact Nat.mul_le_mul_right _ hab
      omega

theorem lexicalPrefix_eq (bytes : List Byte) : lexicalPrefix bytes = padded 8 bytes := by
  have hzeros : ∀ (n acc : Nat), (List.replicate n (0 : Byte)).foldl (fun acc (b : Byte) => acc * 256 + b.toNat) acc =
      acc * 256 ^ n := by
    intro n
    induction n with
    | zero => intro acc; simp
    | succ n ih =>
      intro acc
      rw [List.replicate_succ, List.foldl_cons, ih, Nat.pow_succ]
      simp [Nat.mul_assoc, Nat.mul_comm]
  have hfold : ∀ (n acc : Nat) (l : List Byte), (l.take n ++ List.replicate (n - l.length) 0).foldl
      (fun acc (b : Byte) => acc * 256 + b.toNat) acc = acc * 256 ^ n + padded n l := by
    intro n
    induction n with
    | zero => intro acc l; simp [padded]
    | succ n ih =>
      intro acc l
      cases l with
      | nil =>
        rw [List.take_nil, List.nil_append, List.length_nil, Nat.sub_zero, hzeros]
        rfl
      | cons b l =>
        rw [List.take_succ_cons, List.cons_append, List.foldl_cons, List.length_cons, Nat.add_sub_add_right, ih, padded,
          Nat.pow_succ, Nat.add_mul]
        ring
  have h := hfold 8 0 bytes
  rwa [Nat.zero_mul, Nat.zero_add] at h

section Groups

variable {key : Nat → List Byte}

theorem PackedSortKey.le_trans (a b c : PackedSortKey) (hab : PackedSortKey.le key a b = true)
    (hbc : PackedSortKey.le key b c = true) : PackedSortKey.le key a c = true := by
  unfold PackedSortKey.le at *
  split at hab
  · rename_i h₁
    split at hbc
    · rename_i h₂
      rw [if_pos (h₁.trans h₂), decide_eq_true_eq]
      exact List.le_trans (of_decide_eq_true hab) (of_decide_eq_true hbc)
    · rename_i h₂
      rw [if_neg (by rwa [h₁]), h₁]
      exact hbc
  · rename_i h₁
    split at hbc
    · rename_i h₂
      rw [← h₂, if_neg h₁]
      exact hab
    · have hlt := Nat.lt_trans (of_decide_eq_true hab) (of_decide_eq_true hbc)
      rw [if_neg (Nat.ne_of_lt hlt)]
      exact decide_eq_true hlt

theorem PackedSortKey.le_total (a b : PackedSortKey) :
    (PackedSortKey.le key a b || PackedSortKey.le key b a) = true := by
  unfold PackedSortKey.le
  by_cases h : a.lexical = b.lexical
  · rw [if_pos h, if_pos h.symm]
    simpa using List.le_total (key a.index) (key b.index)
  · rw [if_neg h, if_neg fun h' => h h'.symm]
    simp only [Bool.or_eq_true, decide_eq_true_eq]
    omega

/-- **The sort puts the keys themselves in order.** -/
theorem sortOrder_sorted (indices : List Nat) :
    (sortOrder key indices).Pairwise fun a b => ¬key b.index < key a.index := by
  have hlexical : ∀ k ∈ sortOrder key indices, k.lexical = padded 8 (key k.index) := by
    intro k hk
    obtain ⟨i, -, rfl⟩ := List.mem_map.1 (List.mem_mergeSort.1 hk)
    exact lexicalPrefix_eq _
  refine (List.pairwise_mergeSort PackedSortKey.le_trans PackedSortKey.le_total _).imp_of_mem fun
    {a b} ha hb hab hba => ?_
  unfold PackedSortKey.le at hab
  split at hab
  · exact List.not_lt.2 (of_decide_eq_true hab) hba
  · have hlt := of_decide_eq_true hab
    rw [hlexical a ha, hlexical b hb] at hlt
    exact List.lt_asymm hba (lt_of_padded_lt 8 hlt)

theorem sortOrder_perm (indices : List Nat) :
    ((sortOrder key indices).map PackedSortKey.index).Perm indices := by
  have h := (List.mergeSort_perm (indices.map fun index => PackedSortKey.mk (lexicalPrefix (key index)) index)
    (PackedSortKey.le key)).map PackedSortKey.index
  rwa [List.map_map, show PackedSortKey.index ∘ (fun index => PackedSortKey.mk (lexicalPrefix (key index)) index) =
    id from rfl, List.map_id] at h

/-- What the ids of a run are: those of its tokens, once each, or an error where there are none. -/
structure Merges (groupIds : List Nat → Except CompileError (List Nat)) (idsOf : Nat → List Nat) : Prop where
  ok : ∀ {group ids : List Nat}, groupIds group = .ok ids → group ≠ [] →
    ids.Pairwise (· < ·) ∧ ids ≠ [] ∧ ∀ id, id ∈ ids ↔ ∃ i ∈ group, id ∈ idsOf i
  length : ∀ {group ids : List Nat}, groupIds group = .ok ids → ids.length ≤ (group.flatMap idsOf).length
  error : ∀ {group : List Nat} {err : CompileError}, groupIds group = .error err →
    err = emptyTokenIds ∧ ∀ i ∈ group, idsOf i = []

theorem mergedIds_merges (idsOf : Nat → List Nat) : Merges (mergedIds idsOf) idsOf := by
  constructor
  · intro group ids h _
    unfold mergedIds at h
    simp only at h
    split at h
    · cases h
    · rename_i hne
      cases h
      refine ⟨sortDedup_sorted _, fun hnil => ?_, fun id => by rw [mem_sortDedup, List.mem_flatMap]⟩
      obtain ⟨id, hid⟩ := List.exists_mem_of_ne_nil (group.flatMap idsOf) (by simpa using hne)
      rw [← mem_sortDedup, hnil] at hid
      cases hid
  · intro group ids h
    unfold mergedIds at h
    simp only at h
    split at h
    · cases h
    · cases h
      exact length_sortDedup_le _
  · intro group err h
    unfold mergedIds at h
    simp only at h
    split at h
    · rename_i hnil
      refine ⟨(Except.error.inj h).symm, List.flatMap_eq_nil_iff.1 ?_⟩
      simpa using hnil
    · cases h

theorem packed_merges (idsOf : Nat → List Nat) : Merges (packedGroupIds idsOf) idsOf := by
  constructor
  · intro group ids h hne
    unfold packedGroupIds at h
    split at h
    · split at h
      · cases h
      · rename_i hids
        cases h
        refine ⟨List.pairwise_singleton _ _, List.cons_ne_nil _ _, fun id => ?_⟩
        rw [← hids]
        simp
      · exact (mergedIds_merges idsOf).ok h hne
    · exact (mergedIds_merges idsOf).ok h hne
  · intro group ids h
    unfold packedGroupIds at h
    split at h
    · split at h
      · cases h
      · rename_i hids
        cases h
        simp [hids]
      · exact (mergedIds_merges idsOf).length h
    · exact (mergedIds_merges idsOf).length h
  · intro group err h
    unfold packedGroupIds at h
    split at h
    · split at h
      · rename_i hids
        refine ⟨(Except.error.inj h).symm, fun j hj => ?_⟩
        rw [List.mem_singleton.1 hj, hids]
      · cases h
      · exact (mergedIds_merges idsOf).error h
    · exact (mergedIds_merges idsOf).error h

theorem dense_merges : Merges denseGroupIds fun i => [i] := by
  constructor
  · intro group ids h hne
    unfold denseGroupIds at h
    split at h
    · cases h
      exact ⟨List.pairwise_singleton _ _, List.cons_ne_nil _ _, fun id => by simp⟩
    · cases h
      refine ⟨sortDedup_sorted _, fun hnil => ?_, fun id => by rw [mem_sortDedup]; simp⟩
      obtain ⟨i, hi⟩ := List.exists_mem_of_ne_nil group hne
      rw [← mem_sortDedup, hnil] at hi
      cases hi
  · intro group ids h
    unfold denseGroupIds at h
    split at h
    · cases h
      simp
    · cases h
      exact Nat.le_trans (length_sortDedup_le _) (by simp)
  · intro group err h
    unfold denseGroupIds at h
    split at h <;> cases h

variable {idsOf : Nat → List Nat} {groupIds : List Nat → Except CompileError (List Nat)}

/-- What a packed entry lists: the ids of its index, under its key. -/
def entryOf (key : Nat → List Byte) (idsOf : Nat → List Nat) (k : PackedSortKey) : TokenRecord :=
  (key k.index, idsOf k.index)

/-- A list in key order is the run of its first key and, past it, greater keys. -/
theorem run_split (idsOf : Nat → List Nat) {first : PackedSortKey} {rest : List PackedSortKey}
    (hsort : (first :: rest).Pairwise fun a b => ¬key b.index < key a.index) :
    let same := fun k : PackedSortKey => decide (key k.index = key first.index)
    (first :: rest).map (entryOf key idsOf) =
        (first :: rest.takeWhile same).map (entryOf key idsOf) ++ (rest.dropWhile same).map (entryOf key idsOf) ∧
      (∀ r ∈ (first :: rest.takeWhile same).map (entryOf key idsOf), r.1 = key first.index) ∧
      (∀ r ∈ (rest.dropWhile same).map (entryOf key idsOf), key first.index < r.1) ∧
      (rest.dropWhile same).Pairwise fun a b => ¬key b.index < key a.index := by
  intro same
  refine ⟨?_, ?_, ?_, ?_⟩
  · rw [← List.map_append, List.cons_append, List.takeWhile_append_dropWhile]
  · intro r hr
    obtain ⟨k, hk, rfl⟩ := List.mem_map.1 hr
    rcases List.mem_cons.1 hk with rfl | hk
    · rfl
    · have hsame := List.mem_takeWhile_imp hk
      exact of_decide_eq_true hsame
  · intro r hr
    obtain ⟨k, hk, rfl⟩ := List.mem_map.1 hr
    exact @lt_of_mem_dropWhile _ _ _ _ _ _ (fun k : PackedSortKey => key k.index) _ _ hsort _ hk
  · exact (List.pairwise_cons.1 hsort).2.sublist (List.dropWhile_sublist _)

/-- **The loop over the sorted keys leaves their table.** -/
theorem groupLoop_ok (hg : Merges groupIds idsOf) : ∀ (fuel : Nat) (order : List PackedSortKey) {a a' : PreparedArrays},
    order.length ≤ fuel → a.InRange → (order.Pairwise fun a b => ¬key b.index < key a.index) →
      groupLoop key groupIds fuel order a = .ok a' →
      ∃ table, a'.iter = a.iter ++ table ∧ Tabulates table (order.map (entryOf key idsOf)) ∧ ∀ r ∈ table, r.2 ≠ []
  | fuel, [], a, a', _, _, _, h => by
    unfold groupLoop at h
    cases h
    exact ⟨[], (List.append_nil _).symm, SortedTable.tabulates_nil, fun _ hr => absurd hr List.not_mem_nil⟩
  | 0, _ :: _, _, _, hfuel, _, _, _ => absurd hfuel (Nat.not_succ_le_zero _)
  | fuel + 1, first :: rest, a, a', hfuel, ha, hsort, h => by
    obtain ⟨hsplit, hrun, hrest, hsort'⟩ := run_split idsOf hsort
    unfold groupLoop at h
    obtain ⟨ids, hids, h⟩ := bind_ok h
    obtain ⟨a₁, hpush, h⟩ := bind_ok h
    obtain ⟨ha₁, hiter₁⟩ := pushRecord_ok ha hpush
    have hlen := (List.dropWhile_sublist (fun k : PackedSortKey => decide (key k.index = key first.index))
      (l := rest)).length_le
    obtain ⟨table, hiter, htable, hne⟩ :=
      groupLoop_ok hg fuel _ (Nat.le_trans hlen (Nat.le_of_succ_le_succ hfuel)) ha₁ hsort' h
    obtain ⟨hasc, hids₀, hmem⟩ := hg.ok hids (by simp)
    refine ⟨(key first.index, ids) :: table, by rw [hiter, hiter₁, List.append_assoc]; rfl, ?_, ?_⟩
    · rw [hsplit]
      refine htable.cons hrun (by simp) hrest hasc fun id => ?_
      rw [hmem]
      simp only [List.mem_map, exists_exists_and_eq_and, entryOf]
    · intro r hr
      rcases List.mem_cons.1 hr with rfl | hr
      · exact hids₀
      · exact hne r hr

/-- A run gives the blob its key once, and the ids no more than its tokens list. -/
theorem run_totals (hg : Merges groupIds idsOf) (first : PackedSortKey) (run : List PackedSortKey) {ids : List Nat}
    (h : groupIds ((first :: run).map PackedSortKey.index) = .ok ids) :
    (key first.index).length ≤ keyTotal ((first :: run).map (entryOf key idsOf)) ∧
      ids.length ≤ idTotal ((first :: run).map (entryOf key idsOf)) := by
  refine ⟨Nat.le_add_right _ _, ?_⟩
  have hlen := hg.length h
  rw [List.length_flatMap, List.map_map] at hlen
  rw [idTotal, List.map_map]
  exact hlen

/-- **The loop refuses a key without ids**, or arrays that grow too long. -/
theorem groupLoop_error (hg : Merges groupIds idsOf) {err : CompileError} : ∀ (fuel : Nat) (order : List PackedSortKey)
    {a : PreparedArrays}, order.length ≤ fuel → (order.Pairwise fun a b => ¬key b.index < key a.index) →
      groupLoop key groupIds fuel order a = .error err →
      (u32Size ≤ a.blob.length + keyTotal (order.map (entryOf key idsOf)) ∨
        u32Size ≤ a.ids.length + idTotal (order.map (entryOf key idsOf))) ∨
      ∃ k, HasKey (order.map (entryOf key idsOf)) k ∧ ∀ id, ¬Listed (order.map (entryOf key idsOf)) k id
  | fuel, [], a, _, _, h => by
    unfold groupLoop at h
    cases h
  | 0, _ :: _, _, hfuel, _, _ => absurd hfuel (Nat.not_succ_le_zero _)
  | fuel + 1, first :: rest, a, hfuel, hsort, h => by
    obtain ⟨hsplit, hrun, hrest, hsort'⟩ := run_split idsOf hsort
    have hlen := (List.dropWhile_sublist (fun k : PackedSortKey => decide (key k.index = key first.index))
      (l := rest)).length_le
    unfold groupLoop at h
    rw [hsplit, keyTotal_append, idTotal_append]
    rcases bind_error h with h | ⟨ids, hids, h⟩
    · obtain ⟨-, hnone⟩ := hg.error h
      refine .inr ⟨key first.index, ⟨_, List.mem_append_left _ (List.mem_map_of_mem List.mem_cons_self), rfl⟩, ?_⟩
      intro id hid
      rcases listed_append.1 hid with ⟨r, hr, -, hv⟩ | ⟨r, hr, hkey, -⟩
      · obtain ⟨k, hk, rfl⟩ := List.mem_map.1 hr
        have hnil : (entryOf key idsOf k).2 = [] := hnone k.index (List.mem_map_of_mem hk)
        rw [hnil] at hv
        cases hv
      · exact List.lt_irrefl _ (hkey ▸ hrest r hr)
    obtain ⟨hkeyRun, hidRun⟩ := @run_totals key _ _ hg first _ _ hids
    rcases bind_error h with h | ⟨a₁, ha₁, h⟩
    · have hpast := pushRecord_error h
      exact .inl (by omega)
    · obtain ⟨hblob, hgrown⟩ := pushRecord_grows ha₁
      rcases groupLoop_error hg fuel _ (Nat.le_trans hlen (Nat.le_of_succ_le_succ hfuel)) hsort' h with h |
        ⟨k, hk, hnone⟩
      · exact .inl (by omega)
      · refine .inr ⟨k, hasKey_append.2 (.inr hk), fun id hid => ?_⟩
        rcases listed_append.1 hid with ⟨r, hr, hkey, -⟩ | hid
        · -- a key of the rest is past the run's
          obtain ⟨r', hr', hkey'⟩ := hk
          have := hrest r' hr'
          rw [hkey', ← hkey, hrun r hr] at this
          exact List.lt_irrefl _ this
        · exact hnone id hid

end Groups

end PreparedArrays

end MaskForge
