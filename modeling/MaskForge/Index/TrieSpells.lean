import MaskForge.Index.Trie
/-!
# TrieSpells — both builders spell their records

The byte builder's state is a labelled forest whose last branch is the previous token; the class builder's is a
labelled forest of build nodes.  One step opens at most one fresh node (`Forest.Labelled.grow`), so the whole build
keeps the labels, and packing or renumbering only moves rows.
-/
namespace MaskForge

open CountingSort (slice bucket offset scatter start)
open Forest (Path Labelled Reached)

namespace VocabTrie

/-- The edges out of a node, as the walk zips them. -/
def kids (t : VocabTrie) (i : Nat) : List (Nat × Nat) :=
  match t.children i with
  | .ok kc => kc.1.zip kc.2
  | .error _ => []

def leaves (t : VocabTrie) (i : Nat) : List Nat :=
  match t.leafTokensOf i with
  | .ok ids => ids
  | .error _ => []

/-- **A trie spells records under a key map**: its rows are readable, its edges are a labelled forest, a node lists only
tokens whose keys are its label, and every token is listed where its keys lead. -/
structure Spells (t : VocabTrie) (key : Byte → Nat) (records : List TokenRecord) (lbl : Nat → List Nat) : Prop where
  readable : ∀ i, i < t.nodeCount → (∃ kc, t.children i = .ok kc) ∧ ∃ ids, t.leafTokensOf i = .ok ids
  labelled : Labelled t.kids t.nodeCount lbl
  few : ∀ i, i < t.nodeCount → (t.kids i).length ≤ t.edgeKey.length
  sound : ∀ i, i < t.nodeCount → ∀ tok ∈ t.leaves i, ∃ r ∈ records, tok ∈ r.2 ∧ r.1.map key = lbl i
  complete : ∀ r ∈ records, ∀ tok ∈ r.2, ∃ i, Path t.kids 0 (r.1.map key) i ∧ tok ∈ t.leaves i

theorem children_ok {t : VocabTrie} {n lo hi : Nat} (hlo : t.firstChild[n]? = some lo)
    (hhi : t.firstChild[n + 1]? = some hi) : t.children n = .ok (slice t.edgeKey lo hi, slice t.childNode lo hi) := by
  unfold children range
  rw [hlo, hhi]
  rfl

theorem leafTokensOf_ok {t : VocabTrie} {n lo hi : Nat} (hlo : t.tokenHead[n]? = some lo)
    (hhi : t.tokenHead[n + 1]? = some hi) : t.leafTokensOf n = .ok (slice t.leafTokens lo hi) := by
  unfold leafTokensOf range
  rw [hlo, hhi]
  rfl

end VocabTrie

/-- The tokens build entries list at a node. -/
def Lists (leaves : List (Nat × List Nat)) (i tok : Nat) : Prop := ∃ ids, (i, ids) ∈ leaves ∧ tok ∈ ids

theorem commonPrefixLen_spec : ∀ (a b : List Byte), commonPrefixLen a b ≤ a.length ∧
    a.take (commonPrefixLen a b) = b.take (commonPrefixLen a b) ∧ commonPrefixLen a b ≤ b.length
  | [], b => by simp [commonPrefixLen]
  | a :: as, [] => by simp [commonPrefixLen]
  | a :: as, b :: bs => by
    unfold commonPrefixLen
    split
    · rename_i hab
      obtain ⟨h1, h2, h3⟩ := commonPrefixLen_spec as bs
      refine ⟨by simpa using h1, ?_, by simpa using h3⟩
      rw [hab, List.take_succ_cons, List.take_succ_cons, h2]
    · simp

/-! ## The byte builder -/

namespace CsrBuild

/-- The byte of a record as an edge key. -/
def byteKey (b : Byte) : Nat := b.toNat

/-- The build state as a labelled forest: `path` runs down the branch of the bytes `pre`. -/
structure Inv (s : CsrBuild) (pre : List Byte) (done : List TokenRecord) (lbl : Nat → List Nat) : Prop where
  labelled : Labelled (bucket s.edges) s.nodeCount lbl
  reached : Reached (bucket s.edges) s.nodeCount lbl
  parents : ∀ x ∈ s.edges, x.1 < s.nodeCount
  pathLen : s.path.length = pre.length + 1
  pathAt : ∀ d, d ≤ pre.length → ∃ i, s.path[d]? = some i ∧ i < s.nodeCount ∧ lbl i = (pre.take d).map byteKey
  sound : ∀ i tok, Lists s.leaves i tok → i < s.nodeCount ∧ ∃ r ∈ done, tok ∈ r.2 ∧ r.1.map byteKey = lbl i
  complete : ∀ r ∈ done, ∀ tok ∈ r.2, ∃ i, i < s.nodeCount ∧ lbl i = r.1.map byteKey ∧ Lists s.leaves i tok

theorem bucket_grown (edges : List (Nat × (Nat × Nat))) (p k n : Nat) :
    Forest.Grown (bucket edges) (bucket (edges ++ [(p, (k, n))])) n p k := by
  intro i kc
  rw [CountingSort.bucket_append, List.mem_append, CountingSort.bucket_cons]
  by_cases h : p = i
  · subst h
    simp [bucket]
  · simp [bucket, h, Ne.symm h]

theorem bucket_fresh {edges : List (Nat × (Nat × Nat))} {n : Nat} (h : ∀ x ∈ edges, x.1 < n) : bucket edges n = [] := by
  unfold bucket
  rw [List.map_eq_nil_iff, List.filter_eq_nil_iff]
  intro x hx
  have := h x hx
  simp only [beq_iff_eq]
  omega

theorem update_lt {lbl : Nat → List Nat} {n i : Nat} {l : List Nat} (h : i < n) : Function.update lbl n l i = lbl i :=
  Function.update_of_ne (by omega) _ _

/-- The state after one more byte of a branch that ends at `cur`. -/
def opened (s : CsrBuild) (cur : Nat) (b : Byte) : CsrBuild :=
  { s with
    edges := s.edges ++ [(cur, (b.toNat, s.nodeCount))]
    path := s.path ++ [s.nodeCount]
    nodeCount := s.nodeCount + 1 }

theorem Inv.open {s : CsrBuild} {pre : List Byte} {done : List TokenRecord} {lbl : Nat → List Nat} {cur : Nat}
    (hi : Inv s pre done lbl) (hcur : s.path[pre.length]? = some cur) (b : Byte) :
    Inv (opened s cur b) (pre ++ [b]) done (Function.update lbl s.nodeCount (lbl cur ++ [b.toNat])) := by
  obtain ⟨i, hpath, hlt, hlbl⟩ := hi.pathAt pre.length (Nat.le_refl _)
  have hcur' : cur = i := by
    rw [hpath] at hcur
    exact (Option.some.inj hcur).symm
  subst hcur'
  have hg := bucket_grown s.edges cur b.toNat s.nodeCount
  refine ⟨hi.labelled.grow hlt (bucket_fresh hi.parents) hg, hi.reached.grow hlt hg, ?_, ?_, ?_, ?_, ?_⟩
  · intro x hx
    simp only [opened, List.mem_append, List.mem_singleton] at hx ⊢
    rcases hx with hx | rfl
    · have := hi.parents x hx
      omega
    · simp only
      omega
  · simp [opened, hi.pathLen]
  · intro d hd
    simp only [List.length_append, List.length_cons, List.length_nil] at hd
    simp only [opened]
    rcases Nat.lt_or_ge pre.length d with hd' | hd'
    · have hde : d = pre.length + 1 := by omega
      refine ⟨s.nodeCount, ?_, by omega, ?_⟩
      · simp [hde, ← hi.pathLen]
      · rw [Function.update_self, hlbl, hde]
        simp [byteKey]
    · obtain ⟨j, hj, hjlt, hjl⟩ := hi.pathAt d hd'
      refine ⟨j, ?_, by omega, ?_⟩
      · rw [List.getElem?_append_left (by rw [hi.pathLen]; omega)]
        exact hj
      · rw [update_lt hjlt, hjl, List.take_append_of_le_length hd']
  · intro j tok hlist
    obtain ⟨hj, r, hr, htok, hrl⟩ := hi.sound j tok hlist
    exact ⟨by simp only [opened]; omega, r, hr, htok, by rw [update_lt hj]; exact hrl⟩
  · intro r hr tok htok
    obtain ⟨j, hj, hjl, hlist⟩ := hi.complete r hr tok htok
    exact ⟨j, by simp only [opened]; omega, by rw [update_lt hj]; exact hjl, hlist⟩

/-- Opening one node a byte keeps the invariant; the branch grows by the bytes. -/
theorem extend_ok {limits : TrieBuildLimits} {done : List TokenRecord} : ∀ (bs pre : List Byte) (s s' : CsrBuild)
    (cur leaf : Nat) (lbl : Nat → List Nat), Inv s pre done lbl → s.path[pre.length]? = some cur →
    extend limits s cur bs = .ok (s', leaf) →
      s'.leaves = s.leaves ∧ s'.path[(pre ++ bs).length]? = some leaf ∧ ∃ lbl', Inv s' (pre ++ bs) done lbl'
  | [], pre, s, s', cur, leaf, lbl, hi, hcur, h => by
    cases h
    rw [List.append_nil]
    exact ⟨rfl, hcur, lbl, hi⟩
  | b :: bs, pre, s, s', cur, leaf, lbl, hi, hcur, h => by
    unfold extend at h
    split at h
    · cases h
    split at h
    · cases h
    have hlast : (opened s cur b).path[(pre ++ [b]).length]? = some s.nodeCount := by
      simp [opened, ← hi.pathLen]
    have := extend_ok bs (pre ++ [b]) (opened s cur b) s' s.nodeCount leaf _ (hi.open hcur b) hlast h
    rw [List.append_assoc] at this
    exact this

/-- Dropping the end of the branch. -/
theorem Inv.truncate {s : CsrBuild} {pre : List Byte} {done : List TokenRecord} {lbl : Nat → List Nat}
    (hi : Inv s pre done lbl) {k : Nat} (hk : k ≤ pre.length) :
    Inv { s with path := s.path.take (k + 1) } (pre.take k) done lbl := by
  have hlen : (pre.take k).length = k := by simpa using hk
  refine ⟨hi.labelled, hi.reached, hi.parents, ?_, ?_, hi.sound, hi.complete⟩
  · rw [hlen, List.length_take, hi.pathLen]
    omega
  · intro d hd
    rw [hlen] at hd
    obtain ⟨i, h1, h2, h3⟩ := hi.pathAt d (by omega)
    refine ⟨i, ?_, h2, ?_⟩
    · rw [List.getElem?_take_of_lt (by omega)]
      exact h1
    · rw [h3, List.take_take, Nat.min_eq_left hd]

/-- One more record whose ids are listed at the node its bytes lead to. -/
theorem Inv.list {s : CsrBuild} {r : TokenRecord} {done : List TokenRecord} {lbl : Nat → List Nat} {leaf : Nat}
    {leaves : List (Nat × List Nat)} (hi : Inv s r.1 done lbl) (hleaf : s.path[r.1.length]? = some leaf)
    (hl : ∀ i tok, Lists leaves i tok ↔ Lists s.leaves i tok ∨ (i = leaf ∧ tok ∈ r.2)) (total : Nat)
    (prev : List Byte) :
    Inv { s with leaves := leaves, leafIdTotal := total, prev := prev } r.1 (done ++ [r]) lbl := by
  obtain ⟨i, hpath, hlt, hlbl⟩ := hi.pathAt r.1.length (Nat.le_refl _)
  rw [List.take_length] at hlbl
  have hcur : leaf = i := by
    rw [hpath] at hleaf
    exact (Option.some.inj hleaf).symm
  subst hcur
  refine ⟨hi.labelled, hi.reached, hi.parents, hi.pathLen, hi.pathAt, ?_, ?_⟩
  · intro j tok h
    rcases (hl j tok).1 h with h | ⟨rfl, htok⟩
    · obtain ⟨hj, r', hr', h1, h2⟩ := hi.sound j tok h
      exact ⟨hj, r', List.mem_append_left _ hr', h1, h2⟩
    · exact ⟨hlt, r, by simp, htok, hlbl.symm⟩
  · intro r' hr' tok htok
    rcases List.mem_append.1 hr' with hr' | hr'
    · obtain ⟨j, h1, h2, h3⟩ := hi.complete r' hr' tok htok
      exact ⟨j, h1, h2, (hl j tok).2 (Or.inl h3)⟩
    · rw [List.mem_singleton] at hr'
      subst hr'
      exact ⟨leaf, hlt, hlbl, (hl leaf tok).2 (Or.inr ⟨rfl, htok⟩)⟩

/-- How a record's ids are entered once its branch ends at `leaf`; without ids nothing is. -/
inductive Entered (limits : TrieBuildLimits) (s : CsrBuild) (r : TokenRecord) (leaf : Nat) : CsrBuild → Prop where
  | empty : r.2 = [] → Entered limits s r leaf { s with prev := r.1 }
  | ids : r.2 ≠ [] → s.leafIdTotal + r.2.length ≤ limits.maxLeafTokenIds →
      Entered limits s r leaf
        { s with
          leaves := s.leaves ++ [(leaf, r.2)], leafIdTotal := s.leafIdTotal + r.2.length, prev := r.1 }

theorem pushToken_cases {limits : TrieBuildLimits} {s s' : CsrBuild} {r : TokenRecord}
    (h : pushToken limits s r = .ok s') :
    ∃ s₁ leaf, extend limits { s with path := s.path.take (commonPrefixLen s.prev r.1 + 1) }
        ((s.path.take (commonPrefixLen s.prev r.1 + 1))[commonPrefixLen s.prev r.1]?.getD 0)
        (r.1.drop (commonPrefixLen s.prev r.1)) = .ok (s₁, leaf) ∧ Entered limits s₁ r leaf s' := by
  unfold pushToken at h
  obtain ⟨⟨s₁, leaf⟩, h₁, h₂⟩ := bind_ok h
  refine ⟨s₁, leaf, h₁, ?_⟩
  simp only at h₂
  split at h₂
  · rename_i hempty
    cases h₂
    exact .empty (List.isEmpty_iff.1 hempty)
  split at h₂
  · cases h₂
  · rename_i hids htotal
    cases h₂
    exact .ids (fun hnil => hids (by rw [hnil]; rfl)) (by omega)

theorem Entered.prev_eq {limits : TrieBuildLimits} {s s' : CsrBuild} {r : TokenRecord} {leaf : Nat}
    (h : Entered limits s r leaf s') : s'.prev = r.1 := by
  cases h <;> rfl

theorem Inv.enter {limits : TrieBuildLimits} {s s' : CsrBuild} {r : TokenRecord} {done : List TokenRecord}
    {lbl : Nat → List Nat} {leaf : Nat} (hi : Inv s r.1 done lbl) (hleaf : s.path[r.1.length]? = some leaf)
    (h : Entered limits s r leaf s') : Inv s' r.1 (done ++ [r]) lbl := by
  cases h with
  | empty hnil =>
    refine hi.list hleaf (fun i tok => ?_) s.leafIdTotal r.1
    rw [hnil]
    simp
  | ids _ _ =>
    refine hi.list hleaf (fun i tok => ?_) _ r.1
    simp only [Lists, List.mem_append, List.mem_singleton, Prod.mk.injEq]
    constructor
    · rintro ⟨ids, hm | ⟨rfl, rfl⟩, ht⟩
      · exact Or.inl ⟨ids, hm, ht⟩
      · exact Or.inr ⟨rfl, ht⟩
    · rintro (⟨ids, hm, ht⟩ | ⟨rfl, ht⟩)
      · exact ⟨ids, Or.inl hm, ht⟩
      · exact ⟨r.2, Or.inr ⟨rfl, rfl⟩, ht⟩

/-- The branch a record shares with the one before it, and the node it ends at. -/
theorem Inv.shared {s : CsrBuild} {done : List TokenRecord} {lbl : Nat → List Nat} (hi : Inv s s.prev done lbl)
    (bytes : List Byte) :
    ∃ cur, (s.path.take (commonPrefixLen s.prev bytes + 1))[commonPrefixLen s.prev bytes]? = some cur ∧
      cur < s.nodeCount ∧ lbl cur = (bytes.take (commonPrefixLen s.prev bytes)).map byteKey ∧
      (bytes.take (commonPrefixLen s.prev bytes)).length = commonPrefixLen s.prev bytes ∧
      Inv { s with path := s.path.take (commonPrefixLen s.prev bytes + 1) }
        (bytes.take (commonPrefixLen s.prev bytes)) done lbl := by
  obtain ⟨hle, htake, hle'⟩ := commonPrefixLen_spec s.prev bytes
  have ht := hi.truncate hle
  rw [htake] at ht
  have hlen : (bytes.take (commonPrefixLen s.prev bytes)).length = commonPrefixLen s.prev bytes := by simpa using hle'
  obtain ⟨cur, hcur, hlt, hlbl⟩ := ht.pathAt _ (Nat.le_refl _)
  rw [List.take_length] at hlbl
  rw [hlen] at hcur
  exact ⟨cur, hcur, hlt, hlbl, hlen, ht⟩

theorem pushToken_ok {limits : TrieBuildLimits} {s s' : CsrBuild} {r : TokenRecord} {done : List TokenRecord}
    {lbl : Nat → List Nat} (hi : Inv s s.prev done lbl) (h : pushToken limits s r = .ok s') :
    ∃ lbl', Inv s' s'.prev (done ++ [r]) lbl' := by
  obtain ⟨s₁, leaf, h₁, hentered⟩ := pushToken_cases h
  obtain ⟨cur, hcur, -, -, hlen, ht⟩ := hi.shared r.1
  rw [hcur, Option.getD_some] at h₁
  obtain ⟨-, hleaf, lbl', hinv⟩ := extend_ok _ _ _ _ _ _ _ ht (by rw [hlen]; exact hcur) h₁
  rw [List.take_append_drop] at hleaf hinv
  rw [hentered.prev_eq]
  exact ⟨lbl', hinv.enter hleaf hentered⟩

theorem pushTokens_ok {limits : TrieBuildLimits} : ∀ (rest done : List TokenRecord) (s s' : CsrBuild)
    (lbl : Nat → List Nat), Inv s s.prev done lbl → rest.foldlM (pushToken limits) s = .ok s' →
      ∃ lbl', Inv s' s'.prev (done ++ rest) lbl'
  | [], done, s, s', lbl, hi, h => by
    cases h
    exact ⟨lbl, by simpa using hi⟩
  | r :: rest, done, s, s', lbl, hi, h => by
    rw [List.foldlM_cons] at h
    obtain ⟨s₁, h₁, h₂⟩ := bind_ok h
    obtain ⟨lbl₁, hi₁⟩ := pushToken_ok hi h₁
    have := pushTokens_ok rest (done ++ [r]) s₁ s' lbl₁ hi₁ h₂
    rwa [List.append_assoc] at this

theorem inv_empty : Inv {} [] [] (fun _ => []) := by
  refine ⟨⟨rfl, Nat.one_pos, ?_⟩, ?_, ?_, rfl, ?_, ?_, ?_⟩
  · intro i _ kc hkc
    cases hkc
  · intro i hi
    have hi : i < 1 := hi
    obtain rfl : i = 0 := by omega
    exact .nil 0
  · intro x hx
    cases hx
  · intro d hd
    obtain rfl : d = 0 := by simpa using hd
    exact ⟨0, rfl, Nat.one_pos, rfl⟩
  · rintro i tok ⟨ids, h, -⟩
    cases h
  · intro r hr
    cases hr

end CsrBuild

/-! ## Packing -/

theorem getElem?_map_range {β : Type} (f : Nat → β) {n i : Nat} (h : i < n) :
    ((List.range n).map f)[i]? = some (f i) := by
  rw [List.getElem?_map, List.getElem?_range h]
  rfl

theorem slice_map {α β : Type} (f : α → β) (l : List α) (lo hi : Nat) :
    slice (l.map f) lo hi = (slice l lo hi).map f := by
  simp [slice, List.map_take, List.map_drop]

theorem length_slice_le {α : Type} (l : List α) (lo hi : Nat) : (slice l lo hi).length ≤ l.length := by
  unfold slice
  rw [List.length_take, List.length_drop]
  omega

/-- What one leaf row holds of the entries still pending. -/
structure LeafRows (nodes : List Nat) (pending pending' : List (Nat × List Nat)) (rows : List (List Nat)) : Prop where
  len : rows.length = nodes.length
  sound : ∀ (i node : Nat) (row : List Nat), nodes[i]? = some node → rows[i]? = some row →
    ∀ tok ∈ row, Lists pending node tok
  complete : pending' = [] → ∀ node tok, Lists pending node tok →
    ∃ (i : Nat) (row : List Nat), nodes[i]? = some node ∧ rows[i]? = some row ∧ tok ∈ row

theorem LeafRows.cons {node : Nat} {nodes : List Nat} {pending rest pending' : List (Nat × List Nat)}
    {row : List Nat} {rows : List (List Nat)} (h : LeafRows nodes rest pending' rows)
    (hsplit : ∀ n tok, Lists pending n tok ↔ Lists rest n tok ∨ (n = node ∧ tok ∈ row)) :
    LeafRows (node :: nodes) pending pending' (row :: rows) := by
  refine ⟨by simp [h.len], ?_, ?_⟩
  · intro i m r hm hr tok htok
    cases i with
    | zero =>
      cases hm
      cases hr
      exact (hsplit _ _).2 (Or.inr ⟨rfl, htok⟩)
    | succ i => exact (hsplit _ _).2 (Or.inl (h.sound i m r hm hr tok htok))
  · intro hnil m tok hl
    rcases (hsplit _ _).1 hl with hl | ⟨rfl, htok⟩
    · obtain ⟨i, r, h1, h2, h3⟩ := h.complete hnil m tok hl
      exact ⟨i + 1, r, h1, h2, h3⟩
    · exact ⟨0, row, rfl, rfl, htok⟩

theorem fillLeaves_ok : ∀ (nodes : List Nat) (pending pending' : List (Nat × List Nat)) (done : List (List Nat))
    (heads tokens : List Nat),
    fillLeaves nodes pending ((List.range done.length).map (start done), done.flatten)
      = .ok ((heads, tokens), pending') →
      ∃ rows, LeafRows nodes pending pending' rows ∧ tokens = (done ++ rows).flatten ∧
        heads = (List.range ((done ++ rows).length + 1)).map (start (done ++ rows))
  | [], pending, pending', done, heads, tokens, h => by
    unfold fillLeaves at h
    obtain ⟨k, hk, h⟩ := bind_ok h
    obtain ⟨rfl, -⟩ := checkedU32_ok hk
    cases h
    refine ⟨[], ⟨rfl, by simp, ?_⟩, by simp, ?_⟩
    · rintro rfl node tok ⟨ids, h, -⟩
      cases h
    · rw [List.append_nil, List.range_succ, List.map_append, List.map_singleton, CountingSort.start_length]
  | node :: nodes, pending, pending', done, heads, tokens, h => by
    unfold fillLeaves at h
    replace h := bind_ok h
    obtain ⟨k, hk, h⟩ := h
    obtain ⟨rfl, -⟩ := checkedU32_ok hk
    -- whichever row the node gets, the rest runs with that row appended
    have hstep : ∀ (rest : List (Nat × List Nat)) (row : List Nat),
        (∀ n tok, Lists pending n tok ↔ Lists rest n tok ∨ (n = node ∧ tok ∈ row)) →
        fillLeaves nodes rest
          ((List.range done.length).map (start done) ++ [done.flatten.length], done.flatten ++ row)
            = .ok ((heads, tokens), pending') →
        ∃ rows, LeafRows (node :: nodes) pending pending' rows ∧ tokens = (done ++ rows).flatten ∧
          heads = (List.range ((done ++ rows).length + 1)).map (start (done ++ rows)) := by
      intro rest row hsplit hrun
      have hflat : done.flatten ++ row = (done ++ [row]).flatten := by simp
      rw [CountingSort.map_start_snoc done row, hflat] at hrun
      obtain ⟨rows, hrows, htok, hheads⟩ := fillLeaves_ok nodes rest pending' (done ++ [row]) heads tokens hrun
      refine ⟨row :: rows, hrows.cons hsplit, ?_, ?_⟩
      · simpa using htok
      · simpa using hheads
    cases pending with
    | nil => exact hstep [] [] (by simp) (by simpa using h)
    | cons entry rest =>
      obtain ⟨leaf, ids⟩ := entry
      simp only at h
      split at h
      · rename_i hleaf
        subst hleaf
        refine hstep rest _ (fun n tok => ?_) h
        have hids : tok ∈ (if isStrictlyAscending ids then ids else sortDedup ids) ↔ tok ∈ ids := by
          split
          · exact Iff.rfl
          · exact mem_sortDedup ids tok
        rw [hids]
        simp only [Lists, List.mem_cons, Prod.mk.injEq]
        constructor
        · rintro ⟨ids', ⟨rfl, rfl⟩ | hm, ht⟩
          · exact Or.inr ⟨rfl, ht⟩
          · exact Or.inl ⟨ids', hm, ht⟩
        · rintro (⟨ids', hm, ht⟩ | ⟨rfl, ht⟩)
          · exact ⟨ids', Or.inr hm, ht⟩
          · exact ⟨ids, Or.inl ⟨rfl, rfl⟩, ht⟩
      · exact hstep ((leaf, ids) :: rest) [] (by simp) (by simpa using h)

namespace VocabTrie

/-- What the rows of a trie are: the edges and the tokens of each node. -/
structure Rows (t : VocabTrie) (n : Nat) (kids : Nat → List (Nat × Nat)) (leaf : Nat → List Nat) : Prop where
  count : t.nodeCount = n
  kidsAt : ∀ i, i < n → t.children i = .ok ((kids i).map Prod.fst, (kids i).map Prod.snd)
  leavesAt : ∀ i, i < n → t.leafTokensOf i = .ok (leaf i)

theorem Rows.kids_eq {t : VocabTrie} {n : Nat} {kids : Nat → List (Nat × Nat)} {leaf : Nat → List Nat}
    (h : t.Rows n kids leaf) {i : Nat} (hi : i < n) : t.kids i = kids i := by
  unfold VocabTrie.kids
  rw [h.kidsAt i hi]
  simp only [List.zip_map']
  exact List.map_id _

theorem Rows.leaves_eq {t : VocabTrie} {n : Nat} {kids : Nat → List (Nat × Nat)} {leaf : Nat → List Nat}
    (h : t.Rows n kids leaf) {i : Nat} (hi : i < n) : t.leaves i = leaf i := by
  unfold VocabTrie.leaves
  rw [h.leavesAt i hi]

/-- Paths inside the readable rows are paths of the trie. -/
theorem Rows.path {t : VocabTrie} {n : Nat} {kids : Nat → List (Nat × Nat)} {leaf : Nat → List Nat}
    {lbl : Nat → List Nat} (h : t.Rows n kids leaf) (hl : Labelled kids n lbl) {i j : Nat} {ks : List Nat}
    (hi : i < n) (hp : Path kids i ks j) : Path t.kids i ks j ∧ j < n := by
  induction hp with
  | nil i => exact ⟨.nil i, hi⟩
  | cons hk _ ih =>
    obtain ⟨h1, h2⟩ := ih (hl.edge _ hi _ hk).2.2
    exact ⟨.cons (by rw [h.kids_eq hi]; exact hk) h1, h2⟩

/-- A trie spells what its rows spell. -/
theorem Rows.spells {t : VocabTrie} {n : Nat} {kids : Nat → List (Nat × Nat)} {leaf : Nat → List Nat}
    {lbl : Nat → List Nat} {key : Byte → Nat} {records : List TokenRecord} (h : t.Rows n kids leaf)
    (hl : Labelled kids n lbl)
    (hsound : ∀ i, i < n → ∀ tok ∈ leaf i, ∃ r ∈ records, tok ∈ r.2 ∧ r.1.map key = lbl i)
    (hcomplete : ∀ r ∈ records, ∀ tok ∈ r.2, ∃ i, Path kids 0 (r.1.map key) i ∧ tok ∈ leaf i) :
    t.Spells key records lbl := by
  refine ⟨?_, ?_, ?_, ?_, ?_⟩
  · intro i hi
    rw [h.count] at hi
    exact ⟨⟨_, h.kidsAt i hi⟩, ⟨_, h.leavesAt i hi⟩⟩
  · rw [h.count]
    refine ⟨hl.root, hl.inhabited, fun i hi kc hkc => ?_⟩
    rw [h.kids_eq hi] at hkc
    exact hl.edge i hi kc hkc
  · intro i hi
    rw [h.count] at hi
    have hk := h.kidsAt i hi
    unfold children at hk
    obtain ⟨r, -, hr⟩ := bind_ok hk
    have hfst : slice t.edgeKey r.1 r.2 = (kids i).map Prod.fst := congrArg Prod.fst (Except.ok.inj hr)
    have := length_slice_le t.edgeKey r.1 r.2
    rw [hfst, List.length_map] at this
    rw [h.kids_eq hi]
    exact this
  · intro i hi tok htok
    rw [h.count] at hi
    rw [h.leaves_eq hi] at htok
    exact hsound i hi tok htok
  · intro r hr tok htok
    obtain ⟨i, hpath, hleaf⟩ := hcomplete r hr tok htok
    obtain ⟨hp, hi⟩ := h.path hl hl.inhabited hpath
    exact ⟨i, hp, by rw [h.leaves_eq hi]; exact hleaf⟩

end VocabTrie

theorem packCsr_rows {fingerprint : Nat} {s : CsrBuild} {pre : List Byte} {done : List TokenRecord}
    {lbl : Nat → List Nat} {t : VocabTrie} (hi : CsrBuild.Inv s pre done lbl) (h : packCsr fingerprint s = .ok t) :
    ∃ leaf : Nat → List Nat, t.Rows s.nodeCount (bucket s.edges) leaf ∧
      ∀ i, i < s.nodeCount → ∀ tok, tok ∈ leaf i ↔ Lists s.leaves i tok := by
  unfold packCsr at h
  obtain ⟨⟨⟨heads, tokens⟩, pending'⟩, hfill, h⟩ := bind_ok h
  split at h
  case isFalse => cases h
  rename_i hempty
  cases h
  obtain ⟨rows, hrows, htok, hheads⟩ := fillLeaves_ok _ _ _ [] _ _ hfill
  rw [List.nil_append] at htok hheads
  have hlen : rows.length = s.nodeCount := by rw [hrows.len, List.length_range]
  have hrow : ∀ i, i < s.nodeCount → rows[i]? = some (rows[i]?.getD []) := by
    intro i hin
    rw [List.getElem?_eq_getElem (by omega)]
    rfl
  refine ⟨fun i => rows[i]?.getD [], ⟨?_, ?_, ?_⟩, ?_⟩
  · simp [VocabTrie.nodeCount]
  · intro i hin
    rw [VocabTrie.children_ok (getElem?_map_range (offset s.edges) (show i < s.nodeCount + 1 by omega))
      (getElem?_map_range (offset s.edges) (show i + 1 < s.nodeCount + 1 by omega))]
    simp only [slice_map, CountingSort.scatter_row (0, 0) s.nodeCount s.edges hi.parents i hin]
  · intro i hin
    subst hheads htok
    rw [VocabTrie.leafTokensOf_ok (getElem?_map_range (start rows) (show i < rows.length + 1 by omega))
      (getElem?_map_range (start rows) (show i + 1 < rows.length + 1 by omega))]
    exact congrArg Except.ok (CountingSort.slice_flatten rows i _ (hrow i hin))
  · intro i hin tok
    constructor
    · intro hmem
      exact hrows.sound i i _ (by rw [List.getElem?_range hin]) (hrow i hin) tok hmem
    · intro hl
      obtain ⟨j, row, hj, hr, hmem⟩ := hrows.complete (List.isEmpty_iff.1 hempty) i tok hl
      have hj' : j < s.nodeCount := by
        have := (List.getElem?_eq_some_iff.1 hj).1
        simpa using this
      rw [List.getElem?_range hj', Option.some.injEq] at hj
      subst hj
      simp only [hr, Option.getD_some]
      exact hmem

/-- **The byte builder spells its records.** -/
theorem buildByteCsr_spells {limits : TrieBuildLimits} {fingerprint : Nat} {pairs : List TokenRecord} {t : VocabTrie}
    (h : buildByteCsr limits fingerprint pairs = .ok t) :
    t.kind = .byte ∧ ∃ lbl, t.Spells CsrBuild.byteKey pairs lbl := by
  unfold buildByteCsr at h
  obtain ⟨s, hs, ht⟩ := bind_ok h
  obtain ⟨lbl, hi⟩ := CsrBuild.pushTokens_ok pairs [] {} s _ CsrBuild.inv_empty hs
  rw [List.nil_append] at hi
  obtain ⟨leaf, hrows, hleaf⟩ := packCsr_rows hi ht
  refine ⟨?_, lbl, hrows.spells hi.labelled ?_ ?_⟩
  · unfold packCsr at ht
    obtain ⟨filled, -, ht⟩ := bind_ok ht
    split at ht
    · cases ht
      rfl
    · cases ht
  · intro i hin tok htok
    exact (hi.sound i tok ((hleaf i hin tok).1 htok)).2
  · intro r hr tok htok
    obtain ⟨i, hin, hlbl, hl⟩ := hi.complete r hr tok htok
    exact ⟨i, by rw [← hlbl]; exact hi.reached i hin, (hleaf i hin tok).2 hl⟩


/-! ## The class builder -/

theorem mem_insertChild (x kc : Nat × Nat) : ∀ (l : List (Nat × Nat)), kc ∈ insertChild x l ↔ kc = x ∨ kc ∈ l
  | [] => by simp [insertChild]
  | y :: ys => by
    unfold insertChild
    split
    · simp
    · rw [List.mem_cons, mem_insertChild x kc ys, List.mem_cons]
      tauto

/-- The tokens of a build node. -/
def tokensAt (nodes : List BuildNode) (i : Nat) : List Nat := (nodes[i]?.getD {}).tokens

/-- The node list as a labelled forest that lists the records done so far. -/
structure ClassInv (key : Byte → Nat) (nodes : List BuildNode) (done : List TokenRecord) (lbl : Nat → List Nat) :
    Prop where
  labelled : Labelled (childrenAt nodes) nodes.length lbl
  reached : Reached (childrenAt nodes) nodes.length lbl
  sound : ∀ i, i < nodes.length → ∀ tok ∈ tokensAt nodes i, ∃ r ∈ done, tok ∈ r.2 ∧ r.1.map key = lbl i
  complete : ∀ r ∈ done, ∀ tok ∈ r.2, ∃ i, i < nodes.length ∧ lbl i = r.1.map key ∧ tok ∈ tokensAt nodes i

theorem childrenAt_of_le {nodes : List BuildNode} {i : Nat} (h : nodes.length ≤ i) : childrenAt nodes i = [] := by
  unfold childrenAt
  rw [List.getElem?_eq_none h]

/-- The node list with one more child under `cur`. -/
def withChild (nodes : List BuildNode) (cur k : Nat) : List BuildNode :=
  (nodes ++ [({} : BuildNode)]).modify cur (fun n => { n with children := insertChild (k, nodes.length) n.children })

theorem length_withChild (nodes : List BuildNode) (cur k : Nat) :
    (withChild nodes cur k).length = nodes.length + 1 := by
  simp [withChild]

theorem withChild_grown {nodes : List BuildNode} {cur k : Nat} (hcur : cur < nodes.length) :
    Forest.Grown (childrenAt nodes) (childrenAt (withChild nodes cur k)) nodes.length cur k := by
  intro i kc
  unfold childrenAt withChild
  rw [List.getElem?_modify, List.getElem?_append]
  by_cases hi : i < nodes.length
  · rw [if_pos hi, List.getElem?_eq_getElem hi]
    by_cases hc : cur = i
    · subst hc
      simp [mem_insertChild, or_comm]
    · simp [hc, Ne.symm hc]
  · rw [if_neg hi, List.getElem?_eq_none (show nodes.length ≤ i by omega)]
    have hc : ¬ cur = i := by omega
    cases hk : i - nodes.length with
    | zero => simp [hc, Ne.symm hc]
    | succ m => simp [hc, Ne.symm hc]

theorem tokensAt_withChild (nodes : List BuildNode) (cur k i : Nat) :
    tokensAt (withChild nodes cur k) i = tokensAt nodes i := by
  unfold tokensAt withChild
  rw [List.getElem?_modify, List.getElem?_append]
  by_cases hi : i < nodes.length
  · rw [if_pos hi, List.getElem?_eq_getElem hi]
    by_cases hc : cur = i <;> simp [hc]
  · rw [if_neg hi, List.getElem?_eq_none (show nodes.length ≤ i by omega)]
    cases hk : i - nodes.length with
    | zero => by_cases hc : cur = i <;> simp [hc]
    | succ m => by_cases hc : cur = i <;> simp [hc]

theorem ClassInv.open {key : Byte → Nat} {nodes : List BuildNode} {done : List TokenRecord} {lbl : Nat → List Nat}
    {cur : Nat} (hi : ClassInv key nodes done lbl) (hcur : cur < nodes.length) (k : Nat) :
    ClassInv key (withChild nodes cur k) done (Function.update lbl nodes.length (lbl cur ++ [k])) := by
  have hg := withChild_grown (k := k) hcur
  have hempty : tokensAt nodes nodes.length = [] := by
    unfold tokensAt
    rw [List.getElem?_eq_none (Nat.le_refl _)]
    rfl
  refine ⟨?_, ?_, ?_, ?_⟩
  · rw [length_withChild]
    exact hi.labelled.grow hcur (childrenAt_of_le (Nat.le_refl _)) hg
  · rw [length_withChild]
    exact hi.reached.grow hcur hg
  · intro i hin tok htok
    rw [length_withChild] at hin
    rw [tokensAt_withChild] at htok
    rcases Nat.lt_succ_iff_lt_or_eq.1 hin with hlt | rfl
    · rw [CsrBuild.update_lt hlt]
      exact hi.sound i hlt tok htok
    · rw [hempty] at htok
      cases htok
  · intro r hr tok htok
    obtain ⟨i, hlt, hl, ht⟩ := hi.complete r hr tok htok
    refine ⟨i, by rw [length_withChild]; omega, ?_, by rw [tokensAt_withChild]; exact ht⟩
    rw [CsrBuild.update_lt hlt]
    exact hl

theorem descend_ok {key : Byte → Nat} {maxNodes : Nat} {done : List TokenRecord} : ∀ (bs : List Byte)
    (nodes nodes' : List BuildNode) (cur leaf : Nat) (lbl : Nat → List Nat), ClassInv key nodes done lbl →
    cur < nodes.length → descend key maxNodes nodes cur bs = .ok (nodes', leaf) →
      ∃ lbl', ClassInv key nodes' done lbl' ∧ leaf < nodes'.length ∧ lbl' leaf = lbl cur ++ bs.map key
  | [], nodes, nodes', cur, leaf, lbl, hi, hcur, h => by
    cases h
    exact ⟨lbl, hi, hcur, by simp⟩
  | b :: bs, nodes, nodes', cur, leaf, lbl, hi, hcur, h => by
    unfold descend at h
    split at h
    · rename_i kc hfind
      obtain ⟨hkey, hmem⟩ := And.intro (List.find?_some hfind) (List.mem_of_find?_eq_some hfind)
      obtain ⟨hl, -, hlt⟩ := hi.labelled.edge cur hcur kc hmem
      obtain ⟨lbl', h1, h2, h3⟩ := descend_ok bs nodes nodes' kc.2 leaf lbl hi hlt h
      refine ⟨lbl', h1, h2, ?_⟩
      rw [h3, hl, beq_iff_eq.1 hkey]
      simp
    · split at h
      · cases h
      · have hopen := hi.open hcur (key b)
        have hlast : nodes.length < (withChild nodes cur (key b)).length := by
          rw [length_withChild]
          omega
        obtain ⟨lbl', h1, h2, h3⟩ := descend_ok bs _ nodes' nodes.length leaf _ hopen hlast h
        refine ⟨lbl', h1, h2, ?_⟩
        rw [h3, Function.update_self]
        simp

theorem tokensAt_modify (nodes : List BuildNode) (leaf : Nat) (ids : List Nat) (hleaf : leaf < nodes.length) (i : Nat) :
    tokensAt (nodes.modify leaf (fun n => { n with tokens := n.tokens ++ ids })) i =
      if i = leaf then tokensAt nodes i ++ ids else tokensAt nodes i := by
  unfold tokensAt
  rw [List.getElem?_modify]
  by_cases h : leaf = i
  · subst h
    rw [List.getElem?_eq_getElem hleaf]
    simp
  · simp [h, Ne.symm h]

theorem childrenAt_modify (nodes : List BuildNode) (leaf : Nat) (ids : List Nat) :
    childrenAt (nodes.modify leaf (fun n => { n with tokens := n.tokens ++ ids })) = childrenAt nodes := by
  funext i
  unfold childrenAt
  rw [List.getElem?_modify]
  cases nodes[i]? with
  | none => rfl
  | some b => by_cases h : leaf = i <;> simp [h]

theorem insertRecord_ok {limits : TrieBuildLimits} {key : Byte → Nat} {s s' : List BuildNode × Nat} {r : TokenRecord}
    {done : List TokenRecord} {lbl : Nat → List Nat} (hi : ClassInv key s.1 done lbl)
    (h : insertRecord limits key s r = .ok s') : ∃ lbl', ClassInv key s'.1 (done ++ [r]) lbl' := by
  unfold insertRecord at h
  obtain ⟨⟨nodes, leaf⟩, hd, h⟩ := bind_ok h
  split at h
  · cases h
  cases h
  obtain ⟨lbl', hinv, hleaf, hlbl⟩ := descend_ok r.1 _ _ _ _ _ hi hi.labelled.inhabited hd
  rw [hi.labelled.root, List.nil_append] at hlbl
  have htok := tokensAt_modify nodes leaf r.2 hleaf
  refine ⟨lbl', ?_, ?_, ?_, ?_⟩
  · simpa [childrenAt_modify] using hinv.labelled
  · simpa [childrenAt_modify] using hinv.reached
  · intro i hin tok hmem
    simp only [List.length_modify] at hin
    rw [htok] at hmem
    have hold : tok ∈ tokensAt nodes i → ∃ r' ∈ done ++ [r], tok ∈ r'.2 ∧ r'.1.map key = lbl' i := by
      intro hmem
      obtain ⟨r', hr', h1, h2⟩ := hinv.sound i hin tok hmem
      exact ⟨r', List.mem_append_left _ hr', h1, h2⟩
    split at hmem
    · rename_i hil
      subst hil
      rcases List.mem_append.1 hmem with hmem | hmem
      · exact hold hmem
      · exact ⟨r, by simp, hmem, hlbl.symm⟩
    · exact hold hmem
  · intro r' hr' tok hmem
    simp only [List.length_modify]
    rcases List.mem_append.1 hr' with hr' | hr'
    · obtain ⟨i, h1, h2, h3⟩ := hinv.complete r' hr' tok hmem
      refine ⟨i, h1, h2, ?_⟩
      rw [htok]
      split
      · exact List.mem_append_left _ h3
      · exact h3
    · rw [List.mem_singleton] at hr'
      subst hr'
      refine ⟨leaf, hleaf, hlbl, ?_⟩
      rw [htok, if_pos rfl]
      exact List.mem_append_right _ hmem

theorem insertRecords_ok {limits : TrieBuildLimits} {key : Byte → Nat} : ∀ (rest done : List TokenRecord)
    (s s' : List BuildNode × Nat) (lbl : Nat → List Nat), ClassInv key s.1 done lbl →
    rest.foldlM (insertRecord limits key) s = .ok s' → ∃ lbl', ClassInv key s'.1 (done ++ rest) lbl'
  | [], done, s, s', lbl, hi, h => by
    cases h
    exact ⟨lbl, by simpa using hi⟩
  | r :: rest, done, s, s', lbl, hi, h => by
    rw [List.foldlM_cons] at h
    obtain ⟨s₁, h₁, h₂⟩ := bind_ok h
    obtain ⟨lbl₁, hi₁⟩ := insertRecord_ok hi h₁
    have := insertRecords_ok rest (done ++ [r]) s₁ s' lbl₁ hi₁ h₂
    rwa [List.append_assoc] at this

theorem classInv_root (key : Byte → Nat) : ClassInv key [{}] [] (fun _ => []) := by
  have hkids : ∀ i, childrenAt [({} : BuildNode)] i = [] := by
    intro i
    cases i <;> rfl
  refine ⟨⟨rfl, Nat.one_pos, ?_⟩, ?_, ?_, ?_⟩
  · intro i _ kc hkc
    rw [hkids] at hkc
    cases hkc
  · intro i hi
    obtain rfl : i = 0 := by simpa using hi
    exact .nil 0
  · intro i hi tok htok
    obtain rfl : i = 0 := by simpa using hi
    cases htok
  · intro r hr
    cases hr

/-! ## Renumbering -/

theorem finalOf_spec (order : List Nat) (b : Nat) (hb : b ∈ order) :
    order[finalOf order b]? = some b ∧ ∀ i, order[i]? = some b → i ≤ finalOf order b := by
  -- read from the front, the accumulator is the last index so far
  suffices hgen : ∀ (rest done : List Nat) (acc : Nat), (b ∈ done → (done ++ rest)[acc]? = some b) →
      (∀ i, i < done.length → (done ++ rest)[i]? = some b → i ≤ acc) → (b ∈ done ++ rest) →
      (done ++ rest)[(rest.zipIdx done.length).foldl (fun acc x => if x.1 = b then x.2 else acc) acc]? = some b ∧
      ∀ i, (done ++ rest)[i]? = some b →
        i ≤ (rest.zipIdx done.length).foldl (fun acc x => if x.1 = b then x.2 else acc) acc by
    have := hgen order [] 0 (by simp) (by simp) (by simpa using hb)
    simpa [finalOf] using this
  intro rest
  induction rest with
  | nil =>
    intro done acc h1 h2 h3
    refine ⟨h1 (by simpa using h3), fun i hi => h2 i ?_ hi⟩
    simpa using (List.getElem?_eq_some_iff.1 hi).1
  | cons x rest ih =>
    intro done acc h1 h2 h3
    rw [List.zipIdx_cons, List.foldl_cons]
    have hx : (done ++ x :: rest)[done.length]? = some x := by simp
    have hsplit : done ++ x :: rest = done ++ [x] ++ rest := by simp
    have hlen : done.length + 1 = (done ++ [x]).length := by simp
    rw [hsplit, hlen]
    rw [hsplit] at h1 h2 h3 hx
    apply ih
    · intro hmem
      simp only
      split
      · rename_i hxb
        rw [hx, hxb]
      · rename_i hxb
        rcases List.mem_append.1 hmem with hmem | hmem
        · exact h1 hmem
        · rw [List.mem_singleton] at hmem
          exact absurd hmem.symm hxb
    · intro i hi hget
      rw [← hlen] at hi
      simp only
      split
      · omega
      · rename_i hxb
        rcases Nat.lt_or_ge i done.length with hlt | hge
        · exact h2 i hlt hget
        · have : i = done.length := by omega
          rw [this, hx] at hget
          exact absurd (Option.some.inj hget) hxb
    · exact h3

theorem childrenAt_length_le (nodes : List BuildNode) (i : Nat) :
    (childrenAt nodes i).length ≤ (nodes.map (fun b => b.children.length)).sum := by
  unfold childrenAt
  cases h : nodes[i]? with
  | none => exact Nat.zero_le _
  | some b => exact List.single_le_sum (by simp) _ (List.mem_map.2 ⟨b, List.mem_of_getElem? h, rfl⟩)

theorem preorderOf_renumbers {nodes : List BuildNode} {lbl : Nat → List Nat}
    (hl : Labelled (childrenAt nodes) nodes.length lbl) :
    Forest.Renumbers (childrenAt nodes) (preorderOf nodes) (finalOf (preorderOf nodes)) ∧
      ∀ b ∈ preorderOf nodes, b < nodes.length := by
  have hasc : Worklist.Ascending (fun b => (childrenAt nodes b).map Prod.snd) nodes.length
      ((nodes.map (fun b => b.children.length)).sum) := by
    refine ⟨fun i _ => by rw [List.length_map]; exact childrenAt_length_le nodes i, ?_⟩
    intro i hi c hc
    obtain ⟨kc, hkc, rfl⟩ := List.mem_map.1 hc
    exact (hl.edge i hi kc hkc).2
  obtain ⟨-, hlt, hafter⟩ := Worklist.preorder_spec hasc (Worklist.fuel nodes.length _) [0]
    (by simpa using hl.inhabited) (by rw [Worklist.weight_root])
  refine ⟨⟨?_, ?_⟩, hlt⟩
  · unfold preorderOf
    have hpos : 0 < Worklist.fuel nodes.length ((nodes.map (fun b => b.children.length)).sum) :=
      Nat.pow_pos (by omega)
    obtain ⟨f, hf⟩ : ∃ f, Worklist.fuel nodes.length ((nodes.map (fun b => b.children.length)).sum) = f + 1 :=
      ⟨_, (Nat.succ_pred_eq_of_pos hpos).symm⟩
    rw [hf]
    rfl
  · intro fi b hfi kc hkc
    have hlen := (List.getElem?_eq_some_iff.1 hfi).1
    have hget := (List.getElem?_eq_some_iff.1 hfi).2
    have hsplit : preorderOf nodes = (preorderOf nodes).take fi ++ b :: (preorderOf nodes).drop (fi + 1) := by
      rw [← hget, List.getElem_cons_drop, List.take_append_drop]
    have hpost := hafter _ b _ hsplit kc.2 (List.mem_map.2 ⟨kc, hkc, rfl⟩)
    obtain ⟨m, hm⟩ := List.mem_iff_getElem?.1 hpost
    rw [List.getElem?_drop] at hm
    obtain ⟨h1, h2⟩ := finalOf_spec (preorderOf nodes) kc.2 (List.mem_of_getElem? hm)
    have := h2 _ hm
    exact ⟨h1, by omega⟩

/-- The rows `flatten` writes for the nodes of `order`. -/
def kidRows (nodes : List BuildNode) (order done : List Nat) : List (List (Nat × Nat)) :=
  done.map (fun b => (childrenAt nodes b).map (fun kc => (kc.1, finalOf order kc.2)))

def leafRows (nodes : List BuildNode) (done : List Nat) : List (List Nat) :=
  done.map (fun b => sortDedup (tokensAt nodes b))

/-- The arrays after the nodes `done` have been emitted. -/
def laidOut (nodes : List BuildNode) (order done : List Nat) (t : VocabTrie) : VocabTrie :=
  { t with
    firstChild := (List.range done.length).map (start (kidRows nodes order done))
    tokenHead := (List.range done.length).map (start (leafRows nodes done))
    edgeKey := (kidRows nodes order done).flatten.map Prod.fst
    childNode := (kidRows nodes order done).flatten.map Prod.snd
    leafTokens := (leafRows nodes done).flatten }

theorem laidOut_snoc (nodes : List BuildNode) (order done : List Nat) (b : Nat) (t : VocabTrie) :
    laidOut nodes order (done ++ [b]) t =
      { laidOut nodes order done t with
        firstChild := (laidOut nodes order done t).firstChild ++ [(laidOut nodes order done t).edgeKey.length]
        tokenHead := (laidOut nodes order done t).tokenHead ++ [(laidOut nodes order done t).leafTokens.length]
        edgeKey := (laidOut nodes order done t).edgeKey ++ (childrenAt nodes b).map Prod.fst
        childNode := (laidOut nodes order done t).childNode ++
          (childrenAt nodes b).map (fun kc => finalOf order kc.2)
        leafTokens := (laidOut nodes order done t).leafTokens ++ sortDedup (tokensAt nodes b) } := by
  have hk := CountingSort.map_start_snoc (kidRows nodes order done)
    ((childrenAt nodes b).map (fun kc => (kc.1, finalOf order kc.2)))
  have hl := CountingSort.map_start_snoc (leafRows nodes done) (sortDedup (tokensAt nodes b))
  have hlenk : (kidRows nodes order done).length = done.length := by simp [kidRows]
  have hlenl : (leafRows nodes done).length = done.length := by simp [leafRows]
  have hkr : kidRows nodes order (done ++ [b]) =
      kidRows nodes order done ++ [(childrenAt nodes b).map (fun kc => (kc.1, finalOf order kc.2))] := by
    simp [kidRows]
  have hlr : leafRows nodes (done ++ [b]) = leafRows nodes done ++ [sortDedup (tokensAt nodes b)] := by simp [leafRows]
  simp only [List.length_append, List.length_singleton, hlenk, hlenl] at hk hl
  simp only [laidOut, hkr, hlr, List.length_append, List.length_singleton, ← hk, ← hl, List.length_map,
    List.flatten_append, List.flatten_singleton, List.map_append, List.map_map]
  rfl

/-- The arrays after the last offset. -/
def sealed (nodes : List BuildNode) (order : List Nat) (t : VocabTrie) : VocabTrie :=
  { laidOut nodes order order t with
    firstChild := (List.range (order.length + 1)).map (start (kidRows nodes order order))
    tokenHead := (List.range (order.length + 1)).map (start (leafRows nodes order)) }

theorem emitNodes_ok (nodes : List BuildNode) (order : List Nat) (t t' : VocabTrie) : ∀ (rest done : List Nat),
    done ++ rest = order → emitNodes nodes order rest (laidOut nodes order done t) = .ok t' →
      t' = sealed nodes order t
  | [], done, hsplit, h => by
    rw [List.append_nil] at hsplit
    subst hsplit
    unfold emitNodes at h
    obtain ⟨fc, hfc, h⟩ := bind_ok h
    obtain ⟨rfl, -⟩ := checkedU32_ok hfc
    obtain ⟨th, hth, h⟩ := bind_ok h
    obtain ⟨rfl, -⟩ := checkedU32_ok hth
    cases h
    have hk : start (kidRows nodes done done) done.length = (kidRows nodes done done).flatten.length := by
      rw [← CountingSort.start_length]
      simp [kidRows]
    have hl : start (leafRows nodes done) done.length = (leafRows nodes done).flatten.length := by
      rw [← CountingSort.start_length]
      simp [leafRows]
    simp only [sealed, laidOut, List.range_succ, List.map_append, List.map_singleton, hk, hl, List.length_map]
  | b :: rest, done, hsplit, h => by
    unfold emitNodes at h
    obtain ⟨fc, hfc, h⟩ := bind_ok h
    obtain ⟨rfl, -⟩ := checkedU32_ok hfc
    obtain ⟨th, hth, h⟩ := bind_ok h
    obtain ⟨rfl, -⟩ := checkedU32_ok hth
    refine emitNodes_ok nodes order t t' rest (done ++ [b]) (by simpa using hsplit) ?_
    rw [laidOut_snoc]
    exact h

theorem flatten_ok {nodes : List BuildNode} {kind : TrieKind} {fingerprint : Nat} {partition : Option Nat}
    {t : VocabTrie} (h : flatten nodes kind fingerprint partition = .ok t) :
    t.kind = kind ∧ t.partition = partition ∧
      t.Rows (preorderOf nodes).length
        (Forest.renumbered (childrenAt nodes) (preorderOf nodes) (finalOf (preorderOf nodes)))
        (fun fi => sortDedup (tokensAt nodes ((preorderOf nodes)[fi]?.getD 0))) := by
  unfold flatten at h
  obtain ⟨-, -, h⟩ := bind_ok h
  obtain ⟨t₁, hemit, h⟩ := bind_ok h
  have hsealed := emitNodes_ok nodes (preorderOf nodes) (VocabTrie.unfilled kind fingerprint partition) t₁
    (preorderOf nodes) [] rfl hemit
  subst hsealed
  cases h
  refine ⟨rfl, rfl, ?_, ?_, ?_⟩
  · simp [VocabTrie.nodeCount, sealed]
  · intro i hi
    have hb : (preorderOf nodes)[i]? = some (preorderOf nodes)[i] := List.getElem?_eq_getElem hi
    have hrow : (kidRows nodes (preorderOf nodes) (preorderOf nodes))[i]? =
        some (Forest.renumbered (childrenAt nodes) (preorderOf nodes) (finalOf (preorderOf nodes)) i) := by
      unfold kidRows Forest.renumbered
      rw [List.getElem?_map, hb]
      rfl
    rw [VocabTrie.children_ok
      (getElem?_map_range (start (kidRows nodes (preorderOf nodes) (preorderOf nodes)))
        (show i < (preorderOf nodes).length + 1 by omega))
      (getElem?_map_range (start (kidRows nodes (preorderOf nodes) (preorderOf nodes)))
        (show i + 1 < (preorderOf nodes).length + 1 by omega))]
    simp only [sealed, laidOut, slice_map, CountingSort.slice_flatten _ i _ hrow]
  · intro i hi
    have hb : (preorderOf nodes)[i]? = some (preorderOf nodes)[i] := List.getElem?_eq_getElem hi
    have hrow : (leafRows nodes (preorderOf nodes))[i]? =
        some (sortDedup (tokensAt nodes ((preorderOf nodes)[i]?.getD 0))) := by
      unfold leafRows
      rw [List.getElem?_map, hb]
      rfl
    rw [VocabTrie.leafTokensOf_ok
      (getElem?_map_range (start (leafRows nodes (preorderOf nodes))) (show i < (preorderOf nodes).length + 1 by omega))
      (getElem?_map_range (start (leafRows nodes (preorderOf nodes)))
        (show i + 1 < (preorderOf nodes).length + 1 by omega))]
    simp only [sealed, laidOut, CountingSort.slice_flatten _ i _ hrow]

/-- **The class builder spells its records** under the class map. -/
theorem buildFromRefs_spells {limits : TrieBuildLimits} {key : Byte → Nat} {kind : TrieKind} {fingerprint : Nat}
    {partition : Option Nat} {pairs : List TokenRecord} {t : VocabTrie}
    (h : buildFromRefs limits key kind fingerprint partition pairs = .ok t) :
    t.kind = kind ∧ t.partition = partition ∧ ∃ lbl, t.Spells key pairs lbl := by
  unfold buildFromRefs at h
  obtain ⟨-, -, h⟩ := bind_ok h
  obtain ⟨s, hs, h⟩ := bind_ok h
  obtain ⟨lbl, hi⟩ := insertRecords_ok _ [] _ s _ (classInv_root key) hs
  rw [List.nil_append] at hi
  obtain ⟨hkind, hpart, hrows⟩ := flatten_ok h
  obtain ⟨hren, hlt⟩ := preorderOf_renumbers hi.labelled
  refine ⟨hkind, hpart, _, hrows.spells (hi.labelled.renumber hlt hren) ?_ ?_⟩
  · intro fi hfi tok htok
    have hb : (preorderOf s.1)[fi]? = some (preorderOf s.1)[fi] := List.getElem?_eq_getElem hfi
    rw [mem_sortDedup, hb, Option.getD_some] at htok
    obtain ⟨r, hr, h1, h2⟩ := hi.sound _ (hlt _ (List.getElem_mem hfi)) tok htok
    exact ⟨r, List.mem_mergeSort.1 hr, h1, by rw [h2, hb, Option.getD_some]⟩
  · intro r hr tok htok
    obtain ⟨i, hin, hl, htok'⟩ := hi.complete r (List.mem_mergeSort.2 hr) tok htok
    obtain ⟨fj, hfj, hpath⟩ := (hi.reached i hin).renumber hren 0 hren.root
    refine ⟨fj, by rw [← hl]; exact hpath, ?_⟩
    rw [mem_sortDedup, hfj, Option.getD_some]
    exact htok'

end MaskForge
