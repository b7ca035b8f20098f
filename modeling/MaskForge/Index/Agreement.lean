import MaskForge.Index.TrieSpells
import MaskForge.Lib.Preorder
/-!
# Agreement — the append-only builder makes the reference builder's trie

On byte-sorted records the two builders run in step (`Tracks`): the edges opened so far, bucketed by parent, are the
children of the build nodes, and the terminal entries are their tokens.  Nodes are opened in the order of their strings,
so the preorder renumbering of `flatten` changes nothing, and the counting sort lays the same rows end to end.
-/
namespace MaskForge

open CountingSort (slice bucket offset scatter start)
open Forest (Path Labelled Reached Climbing RowsAscend)

theorem byteKey_lt {a b : Byte} (h : a < b) : CsrBuild.byteKey a < CsrBuild.byteKey b := h

/-- **Past the common prefix a larger token goes on with a byte that puts the branch above the smaller one.** -/
theorem commonPrefix_onward : ∀ {a b : List Byte}, a < b →
    ∃ c t, b.drop (commonPrefixLen a b) = c :: t ∧ a < a.take (commonPrefixLen a b) ++ [c]
  | [], [], h => absurd h (List.not_lt_nil _)
  | [], b :: bs, _ => ⟨b, bs, rfl, List.nil_lt_cons _ _⟩
  | a :: as, [], h => absurd h (List.not_lt_nil _)
  | a :: as, b :: bs, h => by
    unfold commonPrefixLen
    split
    · rename_i hab
      subst hab
      obtain ⟨c, t, hdrop, hlt⟩ := commonPrefix_onward (List.cons_lt_cons_self.1 h)
      exact ⟨c, t, by simpa using hdrop, List.cons_lt_cons_self.2 hlt⟩
    · rename_i hab
      refine ⟨b, bs, rfl, ?_⟩
      rcases List.cons_lt_cons_iff.1 h with hlt | ⟨heq, -⟩
      · exact List.cons_lt_cons_iff.2 (Or.inl hlt)
      · exact absurd heq hab

/-! ## The builders in step -/

namespace CsrBuild

/-- **The byte builder's nodes follow the order of their strings**, none above `top`; terminals are entered in that
order too, one for each record with ids. -/
structure Ordered (s : CsrBuild) (top : List Nat) (done : List TokenRecord) (lbl : Nat → List Nat) : Prop where
  climbing : Climbing s.nodeCount lbl top
  rows : RowsAscend (bucket s.edges) s.nodeCount
  count : s.edges.length + 1 = s.nodeCount
  small : s.nodeCount < u32Size
  leavesUp : (s.leaves.map Prod.fst).Pairwise (· < ·)
  leafRecord : ∀ x ∈ s.leaves, x.1 < s.nodeCount ∧ ∃ r ∈ done, lbl x.1 = r.1.map byteKey ∧ x.2 = r.2
  placed : ∀ r ∈ done, ∃ i, i < s.nodeCount ∧ lbl i = r.1.map byteKey ∧ (r.2 = [] ∨ (i, r.2) ∈ s.leaves)

/-- The reference builder's nodes are the byte builder's. -/
structure Sim (s : CsrBuild) (nodes : List BuildNode) : Prop where
  count : nodes.length = s.nodeCount
  kids : childrenAt nodes = bucket s.edges
  tokens : ∀ i, tokensAt nodes i = (bucket s.leaves i).flatten

theorem Ordered.keys_below {s : CsrBuild} {pre : List Byte} {top : List Nat} {done : List TokenRecord}
    {lbl : Nat → List Nat} {cur : Nat} {b : Byte} (ho : Ordered s top done lbl) (hi : Inv s pre done lbl)
    (hcur : cur < s.nodeCount) (htop : top < lbl cur ++ [byteKey b]) : ∀ kc ∈ bucket s.edges cur, kc.1 < byteKey b := by
  intro kc hkc
  obtain ⟨hlbl, -, hlt⟩ := hi.labelled.edge cur hcur kc hkc
  have hle := lt_of_le_of_lt (ho.climbing.below kc.2 hlt) htop
  rw [hlbl] at hle
  rcases Nat.lt_or_ge kc.1 (byteKey b) with h | h
  · exact h
  · exfalso
    have hge : lbl cur ++ [byteKey b] ≤ lbl cur ++ [kc.1] := by
      rcases Nat.lt_or_eq_of_le h with h | h
      · exact le_of_lt (List.append_left_lt (List.cons_lt_cons_iff.2 (Or.inl h)))
      · rw [h]
    exact absurd hle (not_lt.2 hge)

theorem bucket_snoc {α : Type} (xs : List (Nat × α)) (p : Nat) (v : α) (i : Nat) :
    bucket (xs ++ [(p, v)]) i = if i = p then bucket xs i ++ [v] else bucket xs i := by
  rw [CountingSort.bucket_append, CountingSort.bucket_cons]
  by_cases h : p = i
  · subst h
    simp [bucket]
  · simp [bucket, h, Ne.symm h]

theorem Ordered.open {s : CsrBuild} {pre : List Byte} {top : List Nat} {done : List TokenRecord}
    {lbl : Nat → List Nat} {cur : Nat} {b : Byte} (ho : Ordered s top done lbl) (hi : Inv s pre done lbl)
    (hcur : cur < s.nodeCount) (htop : top < lbl cur ++ [byteKey b]) (hsmall : s.nodeCount + 1 < u32Size) :
    Ordered (opened s cur b) (lbl cur ++ [byteKey b]) done
      (Function.update lbl s.nodeCount (lbl cur ++ [byteKey b])) := by
  refine ⟨ho.climbing.grow htop, ?_, ?_, hsmall, ho.leavesUp, ?_, ?_⟩
  · intro i hlt
    show (bucket (s.edges ++ [(cur, (b.toNat, s.nodeCount))]) i).Pairwise _
    rw [bucket_snoc]
    split
    · rename_i heq
      subst heq
      refine List.pairwise_append.2 ⟨ho.rows i hcur, List.pairwise_singleton _ _, ?_⟩
      intro a ha c hc
      rw [List.mem_singleton.1 hc]
      exact ho.keys_below hi hcur htop a ha
    · rcases Nat.lt_succ_iff_lt_or_eq.1 hlt with hold | rfl
      · exact ho.rows i hold
      · rw [bucket_fresh hi.parents]
        exact List.Pairwise.nil
  · simp [opened, ho.count]
  · intro x hx
    obtain ⟨hlt, r, hr, hlbl, hids⟩ := ho.leafRecord x hx
    exact ⟨Nat.lt_succ_of_lt hlt, r, hr, by rw [update_lt hlt]; exact hlbl, hids⟩
  · intro r hr
    obtain ⟨i, hlt, hlbl, hids⟩ := ho.placed r hr
    exact ⟨i, Nat.lt_succ_of_lt hlt, by rw [update_lt hlt]; exact hlbl, hids⟩

theorem insertChild_last (kc : Nat × Nat) : ∀ (l : List (Nat × Nat)), (∀ x ∈ l, x.1 < kc.1) →
    insertChild kc l = l ++ [kc]
  | [], _ => rfl
  | x :: l, h => by
    have hx := h x List.mem_cons_self
    rw [insertChild, if_neg (by omega), insertChild_last kc l (fun y hy => h y (List.mem_cons_of_mem _ hy))]
    rfl

theorem childrenAt_withChild {nodes : List BuildNode} {cur k : Nat} (hcur : cur < nodes.length)
    (hlast : ∀ kc ∈ childrenAt nodes cur, kc.1 < k) (i : Nat) :
    childrenAt (withChild nodes cur k) i =
      if i = cur then childrenAt nodes i ++ [(k, nodes.length)] else childrenAt nodes i := by
  have happ : ∀ j, childrenAt (nodes ++ [({} : BuildNode)]) j = childrenAt nodes j := by
    intro j
    unfold childrenAt
    rw [List.getElem?_append]
    by_cases hj : j < nodes.length
    · rw [if_pos hj]
    · rw [if_neg hj, List.getElem?_eq_none (show nodes.length ≤ j by omega)]
      cases j - nodes.length <;> rfl
  by_cases h : i = cur
  · subst h
    have hins := insertChild_last (k, nodes.length) (childrenAt nodes i) hlast
    rw [if_pos rfl, ← hins]
    unfold childrenAt withChild
    rw [List.getElem?_modify, List.getElem?_append_left hcur, List.getElem?_eq_getElem hcur]
    simp
  · rw [if_neg h, ← happ i]
    unfold childrenAt withChild
    rw [List.getElem?_modify]
    simp [Ne.symm h]

theorem Sim.open {s : CsrBuild} {nodes : List BuildNode} {cur : Nat} {b : Byte} (hs : Sim s nodes)
    (hcur : cur < s.nodeCount) (hkeys : ∀ kc ∈ bucket s.edges cur, kc.1 < byteKey b) :
    Sim (opened s cur b) (withChild nodes cur (byteKey b)) := by
  refine ⟨?_, ?_, ?_⟩
  · rw [length_withChild, hs.count]
    rfl
  · funext i
    rw [childrenAt_withChild (by rw [hs.count]; exact hcur) (by rw [hs.kids]; exact hkeys), hs.kids, hs.count]
    exact (bucket_snoc s.edges cur (b.toNat, s.nodeCount) i).symm
  · intro i
    rw [tokensAt_withChild]
    exact hs.tokens i

/-- The branch `pre` may go on with these bytes: what is opened lies above `top`. -/
def Onward (top : List Nat) (pre : List Byte) : List Byte → Prop
  | [] => top ≤ pre.map byteKey
  | b :: _ => top < pre.map byteKey ++ [byteKey b]

theorem onward_opened (pre bs : List Byte) (b : Byte) : Onward (pre.map byteKey ++ [byteKey b]) (pre ++ [b]) bs := by
  cases bs with
  | nil =>
    show _ ≤ List.map byteKey (pre ++ [b])
    rw [List.map_append, List.map_singleton]
  | cons c bs =>
    show _ < List.map byteKey (pre ++ [b]) ++ [byteKey c]
    rw [List.map_append, List.map_singleton]
    exact lt_of_le_of_ne (Forest.le_of_prefixed (List.prefix_append _ _)) (by simp)

/-- **Opening a branch in both builders.** -/
theorem extend_tracks {limits : TrieBuildLimits} {done : List TokenRecord} : ∀ (bs pre : List Byte) (s s' : CsrBuild)
    (cur leaf : Nat) (lbl : Nat → List Nat) (top : List Nat) (nodes : List BuildNode), Inv s pre done lbl →
    Ordered s top done lbl → Sim s nodes → s.path[pre.length]? = some cur → Onward top pre bs →
    extend limits s cur bs = .ok (s', leaf) →
      s'.leaves = s.leaves ∧ s'.leafIdTotal = s.leafIdTotal ∧ s'.path[(pre ++ bs).length]? = some leaf ∧
      ∃ lbl' nodes', Inv s' (pre ++ bs) done lbl' ∧ Ordered s' ((pre ++ bs).map byteKey) done lbl' ∧ Sim s' nodes' ∧
        descend byteKey limits.maxNodes nodes cur bs = .ok (nodes', leaf)
  | [], pre, s, s', cur, leaf, lbl, top, nodes, hi, ho, hs, hcur, hon, h => by
    cases h
    rw [List.append_nil]
    refine ⟨rfl, rfl, hcur, lbl, nodes, hi, ?_, hs, rfl⟩
    have hclimb : Climbing s.nodeCount lbl (pre.map byteKey) :=
      ⟨ho.climbing.mono, fun i hlt => le_trans (ho.climbing.below i hlt) hon⟩
    exact { ho with climbing := hclimb }
  | b :: bs, pre, s, s', cur, leaf, lbl, top, nodes, hi, ho, hs, hcur, hon, h => by
    obtain ⟨i, hpath, hlt, hlbl⟩ := hi.pathAt pre.length (Nat.le_refl _)
    have hcur' : cur = i := by
      rw [hpath] at hcur
      exact (Option.some.inj hcur).symm
    subst hcur'
    rw [List.take_length] at hlbl
    have htop : top < lbl cur ++ [byteKey b] := by
      rw [hlbl]
      exact hon
    have hkeys := ho.keys_below hi hlt htop
    unfold extend at h
    split at h
    · cases h
    split at h
    · cases h
    rename_i hmax hsmall
    have hlast : (opened s cur b).path[(pre ++ [b]).length]? = some s.nodeCount := by simp [opened, ← hi.pathLen]
    have hord := ho.open hi hlt htop (by omega)
    have hstep := extend_tracks bs (pre ++ [b]) (opened s cur b) s' s.nodeCount leaf _ _ _ (hi.open hcur b) hord
      (hs.open hlt hkeys) hlast (by rw [hlbl]; exact onward_opened pre bs b) h
    rw [List.append_assoc] at hstep
    obtain ⟨hleaves, htotal, hleaf, lbl', nodes', h1, h2, h3, h4⟩ := hstep
    refine ⟨hleaves, htotal, hleaf, lbl', nodes', h1, h2, h3, ?_⟩
    -- no child has the key, so the reference builder opens the node too
    have hnone : (childrenAt nodes cur).find? (fun kc => kc.1 == byteKey b) = none := by
      rw [hs.kids, List.find?_eq_none]
      intro kc hkc
      have := hkeys kc hkc
      simp only [beq_iff_eq]
      omega
    rw [descend, hnone]
    simp only
    rw [hs.count, if_neg hmax]
    have hcount := hs.count
    unfold withChild at h4
    rw [hcount] at h4
    exact h4

/-- Along a branch that exists the reference builder opens nothing. -/
theorem descend_path {maxNodes : Nat} {nodes : List BuildNode} {lbl : Nat → List Nat} {top : List Nat}
    (hc : Climbing nodes.length lbl top) (hl : Labelled (childrenAt nodes) nodes.length lbl) (bs : List Byte) :
    ∀ (ks : List Byte) (cur j : Nat), cur < nodes.length → Path (childrenAt nodes) cur (ks.map byteKey) j →
      descend byteKey maxNodes nodes cur (ks ++ bs) = descend byteKey maxNodes nodes j bs
  | [], cur, j, _, hp => by
    cases hp
    rfl
  | b :: ks, cur, j, hcur, hp => by
    cases hp with
    | @cons _ c _ _ _ hk htail =>
      obtain ⟨-, -, hlt⟩ := hl.edge cur hcur _ hk
      rw [List.cons_append, descend]
      split
      · rename_i kc hfind
        have hkey : kc.1 = byteKey b := by simpa using List.find?_some hfind
        obtain rfl := hc.child_unique hl hcur (List.mem_of_find?_eq_some hfind) hk hkey
        exact descend_path hc hl bs ks c j hlt htail
      · rename_i hfind
        exact absurd (beq_self_eq_true (byteKey b)) (List.find?_eq_none.1 hfind _ hk)

/-- The records done so far, in both builders. -/
structure Tracks (limits : TrieBuildLimits) (s : CsrBuild) (done : List TokenRecord) (lbl : Nat → List Nat)
    (nodes : List BuildNode) : Prop where
  inv : Inv s s.prev done lbl
  ordered : Ordered s (s.prev.map byteKey) done lbl
  sim : Sim s nodes
  total : s.leafIdTotal ≤ limits.maxLeafTokenIds

/-- The record is above the one before it, or the empty record that comes first. -/
def Follows (s : CsrBuild) (r : TokenRecord) : Prop := s.prev < r.1 ∨ s.prev = [] ∧ r.1 = [] ∧ s.leaves = []

theorem Follows.onward {s : CsrBuild} {r : TokenRecord} (h : Follows s r) :
    Onward (s.prev.map byteKey) (r.1.take (commonPrefixLen s.prev r.1)) (r.1.drop (commonPrefixLen s.prev r.1)) := by
  rcases h with hlt | ⟨hprev, hr, -⟩
  · obtain ⟨c, t, hdrop, hup⟩ := commonPrefix_onward hlt
    have hmap := List.map_lt (fun x y => byteKey_lt) hup
    rw [hdrop]
    rw [(commonPrefixLen_spec s.prev r.1).2.1, List.map_append, List.map_singleton] at hmap
    exact hmap
  · rw [hprev, hr]
    exact le_refl _

theorem Follows.leaves_below {s : CsrBuild} {r : TokenRecord} {done : List TokenRecord} {top : List Nat}
    {lbl : Nat → List Nat} {leaves : List (Nat × List Nat)} (h : Follows s r)
    (hdone : ∀ r' ∈ done, r'.1.map byteKey ≤ s.prev.map byteKey)
    (hleaves : s.leaves = leaves) {n : Nat} (hc : Climbing n lbl top) {leaf : Nat}
    (hlbl : lbl leaf = r.1.map byteKey)
    (hrec : ∀ x ∈ leaves, x.1 < n ∧ ∃ r' ∈ done, lbl x.1 = r'.1.map byteKey ∧ x.2 = r'.2) :
    ∀ x ∈ leaves, x.1 < leaf := by
  intro x hx
  rcases h with hlt | ⟨-, -, hnil⟩
  · obtain ⟨hxn, r', hr', hx', -⟩ := hrec x hx
    refine hc.lt_of_lbl hxn ?_
    rw [hx', hlbl]
    exact lt_of_le_of_lt (hdone r' hr') (List.map_lt (fun x y => byteKey_lt) hlt)
  · rw [← hleaves, hnil] at hx
    cases hx

theorem Ordered.done_below {s : CsrBuild} {top : List Nat} {done : List TokenRecord} {lbl : Nat → List Nat}
    (ho : Ordered s top done lbl) : ∀ r ∈ done, r.1.map byteKey ≤ top := by
  intro r hr
  obtain ⟨i, hi, hlbl, -⟩ := ho.placed r hr
  rw [← hlbl]
  exact ho.climbing.below i hi

theorem Ordered.enter {limits : TrieBuildLimits} {s s' : CsrBuild} {r : TokenRecord} {done : List TokenRecord}
    {top : List Nat} {lbl : Nat → List Nat} {leaf : Nat} (ho : Ordered s top done lbl) (hleaf : leaf < s.nodeCount)
    (hlbl : lbl leaf = r.1.map byteKey) (hbelow : ∀ x ∈ s.leaves, x.1 < leaf) (h : Entered limits s r leaf s') :
    Ordered s' top (done ++ [r]) lbl := by
  have hrec : ∀ x ∈ s.leaves, x.1 < s.nodeCount ∧ ∃ r' ∈ done ++ [r], lbl x.1 = r'.1.map byteKey ∧ x.2 = r'.2 := by
    intro x hx
    obtain ⟨hlt, r', hr', hx'⟩ := ho.leafRecord x hx
    exact ⟨hlt, r', List.mem_append_left _ hr', hx'⟩
  cases h with
  | empty hnil =>
    refine ⟨ho.climbing, ho.rows, ho.count, ho.small, ho.leavesUp, hrec, ?_⟩
    intro r' hr'
    rcases List.mem_append.1 hr' with hr' | hr'
    · exact ho.placed r' hr'
    · rw [List.mem_singleton.1 hr']
      exact ⟨leaf, hleaf, hlbl, Or.inl hnil⟩
  | ids _ _ =>
    refine ⟨ho.climbing, ho.rows, ho.count, ho.small, ?_, ?_, ?_⟩
    · rw [List.map_append, List.map_singleton]
      refine List.pairwise_append.2 ⟨ho.leavesUp, List.pairwise_singleton _ _, ?_⟩
      intro i hi j hj
      obtain ⟨x, hx, rfl⟩ := List.mem_map.1 hi
      rw [List.mem_singleton.1 hj]
      exact hbelow x hx
    · intro x hx
      rcases List.mem_append.1 hx with hx | hx
      · exact hrec x hx
      · rw [List.mem_singleton.1 hx]
        exact ⟨hleaf, r, by simp, hlbl, rfl⟩
    · intro r' hr'
      rcases List.mem_append.1 hr' with hr' | hr'
      · obtain ⟨i, hi, hl, hids⟩ := ho.placed r' hr'
        exact ⟨i, hi, hl, hids.imp_right (List.mem_append_left _)⟩
      · rw [List.mem_singleton.1 hr']
        exact ⟨leaf, hleaf, hlbl, Or.inr (by simp)⟩

theorem Sim.enter {limits : TrieBuildLimits} {s s' : CsrBuild} {r : TokenRecord} {leaf : Nat} {nodes : List BuildNode}
    (hs : Sim s nodes) (hleaf : leaf < s.nodeCount) (h : Entered limits s r leaf s') :
    Sim s' (nodes.modify leaf (fun n => { n with tokens := n.tokens ++ r.2 })) := by
  have htok := tokensAt_modify nodes leaf r.2 (by rw [hs.count]; exact hleaf)
  cases h with
  | empty hnil =>
    refine ⟨by simpa using hs.count, by rw [childrenAt_modify]; exact hs.kids, fun i => ?_⟩
    rw [htok, hs.tokens, hnil]
    simp
  | ids _ _ =>
    refine ⟨by simpa using hs.count, by rw [childrenAt_modify]; exact hs.kids, fun i => ?_⟩
    rw [htok, hs.tokens, bucket_snoc]
    by_cases hi : i = leaf <;> simp [hi]

/-- **One record in both builders.** -/
theorem pushToken_tracks {limits : TrieBuildLimits} {s s' : CsrBuild} {r : TokenRecord} {done : List TokenRecord}
    {lbl : Nat → List Nat} {nodes : List BuildNode} (ht : Tracks limits s done lbl nodes) (hf : Follows s r)
    (h : pushToken limits s r = .ok s') :
    s'.prev = r.1 ∧ ∃ lbl' nodes', Tracks limits s' (done ++ [r]) lbl' nodes' ∧
      insertRecord limits byteKey (nodes, s.leafIdTotal) r = .ok (nodes', s'.leafIdTotal) := by
  obtain ⟨s₁, leaf, h₁, hentered⟩ := pushToken_cases h
  refine ⟨hentered.prev_eq, ?_⟩
  obtain ⟨cur, hcur, hcurlt, hcurlbl, hlen, htrunc⟩ := ht.inv.shared r.1
  rw [hcur, Option.getD_some] at h₁
  have hord : Ordered { s with path := s.path.take (commonPrefixLen s.prev r.1 + 1) } (s.prev.map byteKey) done lbl :=
    ⟨ht.ordered.climbing, ht.ordered.rows, ht.ordered.count, ht.ordered.small, ht.ordered.leavesUp,
      ht.ordered.leafRecord, ht.ordered.placed⟩
  have hsim : Sim { s with path := s.path.take (commonPrefixLen s.prev r.1 + 1) } nodes :=
    ⟨ht.sim.count, ht.sim.kids, ht.sim.tokens⟩
  obtain ⟨hleaves, htotal, hleaf, lbl', nodes', hinv, hord', hsim', hdesc⟩ := extend_tracks _ _ _ _ _ _ _ _ _ htrunc
    hord hsim (by rw [hlen]; exact hcur) hf.onward h₁
  rw [List.take_append_drop] at hleaf hinv hord'
  obtain ⟨i, hpath, hlt, hlbl⟩ := hinv.pathAt r.1.length (Nat.le_refl _)
  obtain rfl : i = leaf := Option.some.inj (hpath.symm.trans hleaf)
  rw [List.take_length] at hlbl
  have hbelow := hf.leaves_below ht.ordered.done_below hleaves.symm hord'.climbing hlbl hord'.leafRecord
  -- the reference builder walks the shared branch, then opens the same nodes
  have hwalk : descend byteKey limits.maxNodes nodes 0 r.1 = .ok (nodes', i) := by
    have hl := ht.inv.labelled
    have hc := ht.ordered.climbing
    have hshared := ht.inv.reached cur hcurlt
    rw [hcurlbl] at hshared
    rw [← ht.sim.kids, ← ht.sim.count] at hl
    rw [← ht.sim.kids] at hshared
    rw [← ht.sim.count] at hc
    rw [← List.take_append_drop (commonPrefixLen s.prev r.1) r.1,
      descend_path hc hl _ _ 0 cur hl.inhabited hshared]
    exact hdesc
  refine ⟨lbl', nodes'.modify i (fun n => { n with tokens := n.tokens ++ r.2 }),
    ⟨?_, ?_, hsim'.enter hlt hentered, ?_⟩, ?_⟩
  · rw [hentered.prev_eq]
    exact hinv.enter hleaf hentered
  · rw [hentered.prev_eq]
    exact hord'.enter hlt hlbl hbelow hentered
  · cases hentered with
    | empty _ =>
      show s₁.leafIdTotal ≤ _
      rw [htotal]
      exact ht.total
    | ids _ hle => exact hle
  · unfold insertRecord
    rw [hwalk]
    show (if limits.maxLeafTokenIds < s.leafIdTotal + r.2.length then _ else _) = _
    cases hentered with
    | empty hnil =>
      have := ht.total
      simp only [hnil, List.length_nil, Nat.add_zero, htotal]
      rw [if_neg (by omega)]
    | ids _ hle =>
      simp only [htotal] at hle ⊢
      rw [if_neg (Nat.not_lt.2 hle)]

/-- Records in byte order follow one another. -/
def Sorted (s : CsrBuild) (rest : List TokenRecord) : Prop :=
  rest.Pairwise (fun a b => a.1 < b.1) ∧ ∀ r ∈ rest.head?, Follows s r

theorem Sorted.next {s s' : CsrBuild} {r : TokenRecord} {rest : List TokenRecord} (h : Sorted s (r :: rest))
    (hprev : s'.prev = r.1) : Sorted s' rest := by
  obtain ⟨hhead, htail⟩ := List.pairwise_cons.1 h.1
  refine ⟨htail, fun r' hr' => Or.inl ?_⟩
  rw [hprev]
  exact hhead r' (List.mem_of_mem_head? hr')

theorem pushTokens_tracks {limits : TrieBuildLimits} : ∀ (rest done : List TokenRecord) (s s' : CsrBuild)
    (lbl : Nat → List Nat) (nodes : List BuildNode), Tracks limits s done lbl nodes → Sorted s rest →
    rest.foldlM (pushToken limits) s = .ok s' →
      ∃ lbl' nodes', Tracks limits s' (done ++ rest) lbl' nodes' ∧
        rest.foldlM (insertRecord limits byteKey) (nodes, s.leafIdTotal) = .ok (nodes', s'.leafIdTotal)
  | [], done, s, s', lbl, nodes, ht, _, h => by
    cases h
    exact ⟨lbl, nodes, by simpa using ht, rfl⟩
  | r :: rest, done, s, s', lbl, nodes, ht, hsort, h => by
    rw [List.foldlM_cons] at h
    obtain ⟨s₁, h₁, h₂⟩ := bind_ok h
    obtain ⟨hprev, lbl₁, nodes₁, ht₁, hins⟩ := pushToken_tracks ht (hsort.2 r rfl) h₁
    obtain ⟨lbl', nodes', ht', hrun⟩ := pushTokens_tracks rest (done ++ [r]) s₁ s' lbl₁ nodes₁ ht₁ (hsort.next hprev) h₂
    refine ⟨lbl', nodes', by rwa [List.append_assoc] at ht', ?_⟩
    rw [List.foldlM_cons, hins]
    exact hrun

theorem tracks_empty (limits : TrieBuildLimits) : Tracks limits {} [] (fun _ => []) [{}] := by
  refine ⟨inv_empty, ⟨⟨?_, ?_⟩, ?_, rfl, by decide, List.Pairwise.nil, ?_, ?_⟩, ⟨rfl, ?_, ?_⟩, Nat.zero_le _⟩
  · intro i j hij hj
    have hj : j < 1 := hj
    omega
  · intro i _
    exact le_refl _
  · intro i _
    exact List.Pairwise.nil
  · intro x hx
    cases hx
  · intro r hr
    cases hr
  · funext i
    cases i <;> rfl
  · intro i
    cases i <;> rfl

theorem sorted_empty {pairs : List TokenRecord} (h : pairs.Pairwise (fun a b => a.1 < b.1)) : Sorted {} pairs := by
  refine ⟨h, fun r _ => ?_⟩
  by_cases hr : r.1 = []
  · exact Or.inr ⟨rfl, hr, rfl⟩
  · obtain ⟨b, bs, hb⟩ := List.exists_cons_of_ne_nil hr
    refine Or.inl ?_
    rw [hb]
    exact List.nil_lt_cons b bs

end CsrBuild

/-! ## Packing and flattening -/

theorem isStrictlyAscending_iff : ∀ (ids : List Nat), isStrictlyAscending ids = true ↔ ids.IsChain (· < ·)
  | [] => by simp [isStrictlyAscending]
  | [a] => by simp [isStrictlyAscending]
  | a :: b :: rest => by
    rw [isStrictlyAscending, Bool.and_eq_true, decide_eq_true_iff, isStrictlyAscending_iff (b :: rest),
      List.isChain_cons_cons]

theorem sortDedup_ascending {ids : List Nat} (h : ids.Pairwise (· < ·)) : sortDedup ids = ids := by
  unfold sortDedup
  rw [List.mergeSort_of_pairwise (h.imp (fun hab => by simpa using Nat.le_of_lt hab))]
  exact List.destutter_of_isChain _ _ (h.imp (fun hab => Nat.ne_of_lt hab)).isChain

/-- Ids already ascending are copied as they are, and sorting would not have changed them. -/
theorem copied_eq (ids : List Nat) : (if isStrictlyAscending ids then ids else sortDedup ids) = sortDedup ids := by
  split
  · rename_i h
    exact (sortDedup_ascending ((isStrictlyAscending_iff ids).1 h).pairwise).symm
  · rfl

theorem checkedU32_eq {e : CompileError} {n : Nat} :
    checkedU32 e n = if n < u32Size then .ok n else .error e := rfl

/-- The leaf rows of terminals entered in node order. -/
def entryRows (leaves : List (Nat × List Nat)) (nodes : List Nat) : List (List Nat) :=
  nodes.map (fun i => sortDedup (bucket leaves i).flatten)

theorem entryRows_skip {leaf : Nat} {ids : List Nat} {rest : List (Nat × List Nat)} {nodes : List Nat}
    (h : leaf ∉ nodes) : entryRows ((leaf, ids) :: rest) nodes = entryRows rest nodes := by
  refine List.map_congr_left (fun i hi => ?_)
  rw [CountingSort.bucket_cons, if_neg]
  rintro rfl
  exact h hi

theorem bucket_nil_of_above {α : Type} {n : Nat} {xs : List (Nat × α)} (h : ∀ x ∈ xs, n < x.1) : bucket xs n = [] := by
  unfold bucket
  rw [List.map_eq_nil_iff, List.filter_eq_nil_iff]
  intro x hx
  have := h x hx
  simp only [beq_iff_eq]
  omega

/-- A node below all terminals gets the empty row. -/
theorem entryRows_empty {leaves : List (Nat × List Nat)} {a k : Nat} (h : ∀ x ∈ leaves, a < x.1) :
    entryRows leaves (List.range' a (k + 1)) = [] :: entryRows leaves (List.range' (a + 1) k) := by
  rw [List.range'_succ, entryRows, List.map_cons, bucket_nil_of_above h]
  exact congrArg (· :: entryRows leaves (List.range' (a + 1) k)) (sortDedup_ascending List.Pairwise.nil)

/-- **Every terminal entered in node order is placed**: the leaf loop fails only where an offset outgrows its type. -/
theorem fillLeaves_eq : ∀ (k a : Nat) (pending : List (Nat × List Nat)) (done : List (List Nat)),
    (pending.map Prod.fst).Pairwise (· < ·) → (∀ x ∈ pending, a ≤ x.1 ∧ x.1 < a + k) →
    fillLeaves (List.range' a k) pending ((List.range done.length).map (start done), done.flatten) =
      if (done ++ entryRows pending (List.range' a k)).flatten.length < u32Size then
        .ok (((List.range (done.length + k + 1)).map (start (done ++ entryRows pending (List.range' a k))),
          (done ++ entryRows pending (List.range' a k)).flatten), [])
      else .error indexOverflow
  | 0, a, pending, done, _, hin => by
    have hnil : pending = [] := by
      cases pending with
      | nil => rfl
      | cons x rest =>
        have := hin x List.mem_cons_self
        omega
    subst hnil
    simp only [List.range'_zero, entryRows, List.map_nil, List.append_nil, Nat.add_zero]
    rw [fillLeaves, checkedU32_eq]
    split
    · rw [List.range_succ, List.map_append, List.map_singleton, CountingSort.start_length]
      rfl
    · rfl
  | k + 1, a, pending, done, hup, hin => by
    -- the node's row is written, the rest of the loop runs with it appended
    have hstep : ∀ (rest : List (Nat × List Nat)) (row : List Nat), (rest.map Prod.fst).Pairwise (· < ·) →
        (∀ x ∈ rest, a + 1 ≤ x.1 ∧ x.1 < a + 1 + k) →
        entryRows pending (List.range' a (k + 1)) = row :: entryRows rest (List.range' (a + 1) k) →
        (checkedU32 indexOverflow done.flatten.length >>= fun h =>
          fillLeaves (List.range' (a + 1) k) rest
            ((List.range done.length).map (start done) ++ [h], done.flatten ++ row)) =
        if (done ++ entryRows pending (List.range' a (k + 1))).flatten.length < u32Size then
          .ok (((List.range (done.length + (k + 1) + 1)).map
            (start (done ++ entryRows pending (List.range' a (k + 1)))),
            (done ++ entryRows pending (List.range' a (k + 1))).flatten), [])
        else .error indexOverflow := by
      intro rest row hup' hin' hrows
      have hflat : done.flatten ++ row = (done ++ [row]).flatten := by simp
      have hrest := fillLeaves_eq k (a + 1) rest (done ++ [row]) hup' hin'
      have hlen : (done ++ [row]).length + k + 1 = done.length + (k + 1) + 1 := by
        rw [List.length_append, List.length_singleton]
        omega
      rw [List.append_assoc, List.singleton_append, ← hrows, hlen] at hrest
      rw [checkedU32_eq]
      split
      · show fillLeaves _ rest (_ ++ [done.flatten.length], _) = _
        rw [CountingSort.map_start_snoc done row, hflat]
        exact hrest
      · rename_i hbig
        rw [if_neg]
        · rfl
        · rw [List.flatten_append, List.length_append]
          omega
    rw [List.range'_succ, fillLeaves]
    rw [← List.range'_succ]
    cases pending with
    | nil =>
      have := hstep [] [] List.Pairwise.nil (by simp) (entryRows_empty (by simp))
      simpa using this
    | cons x rest =>
      obtain ⟨leaf, ids⟩ := x
      obtain ⟨hge, hlt⟩ := hin (leaf, ids) List.mem_cons_self
      rw [List.map_cons] at hup
      obtain ⟨hhead, htail⟩ := List.pairwise_cons.1 hup
      have habove : ∀ y ∈ rest, leaf < y.1 := fun y hy => hhead y.1 (List.mem_map.2 ⟨y, hy, rfl⟩)
      simp only
      by_cases hleaf : leaf = a
      · subst hleaf
        simp only [if_pos, copied_eq]
        refine hstep rest _ htail ?_ ?_
        · intro y hy
          have h1 := habove y hy
          have h2 := hin y (List.mem_cons_of_mem _ hy)
          omega
        · rw [List.range'_succ, entryRows, List.map_cons]
          have hskip : leaf ∉ List.range' (leaf + 1) k := by simp
          rw [CountingSort.bucket_cons, if_pos rfl, bucket_nil_of_above habove]
          rw [show List.map (fun i => sortDedup (bucket ((leaf, ids) :: rest) i).flatten) (List.range' (leaf + 1) k) =
            entryRows rest (List.range' (leaf + 1) k) from entryRows_skip hskip]
          simp
      · simp only [if_neg hleaf]
        refine (congrArg _ ?_).trans (hstep ((leaf, ids) :: rest) [] hup ?_ ?_)
        · simp
        · intro y hy
          rcases List.mem_cons.1 hy with rfl | hy
          · omega
          · have h1 := habove y hy
            have h2 := hin y (List.mem_cons_of_mem _ hy)
            omega
        · refine entryRows_empty (fun y hy => ?_)
          rcases List.mem_cons.1 hy with rfl | hy
          · omega
          · have h1 := habove y hy
            omega

theorem leafRows_append (nodes : List BuildNode) (a b : List Nat) :
    leafRows nodes (a ++ b) = leafRows nodes a ++ leafRows nodes b := List.map_append

theorem kidRows_append (nodes : List BuildNode) (order a b : List Nat) :
    kidRows nodes order (a ++ b) = kidRows nodes order a ++ kidRows nodes order b := List.map_append

theorem length_laidOut_edges (nodes : List BuildNode) (order done : List Nat) (t : VocabTrie) :
    (laidOut nodes order done t).edgeKey.length = (kidRows nodes order done).flatten.length := List.length_map _

theorem length_laidOut_leaves (nodes : List BuildNode) (order done : List Nat) (t : VocabTrie) :
    (laidOut nodes order done t).leafTokens.length = (leafRows nodes done).flatten.length := rfl

/-- **The emission loop fails only where the tokens outgrow their offsets**, the edges being few enough. -/
theorem emitNodes_eq (nodes : List BuildNode) (order : List Nat) (t : VocabTrie)
    (hkids : (kidRows nodes order order).flatten.length < u32Size) : ∀ (rest done : List Nat), done ++ rest = order →
      emitNodes nodes order rest (laidOut nodes order done t) =
        if (leafRows nodes order).flatten.length < u32Size then .ok (sealed nodes order t) else .error indexOverflow
  | [], done, hsplit => by
    rw [List.append_nil] at hsplit
    subst hsplit
    have hfirst : checkedU32 indexOverflow (laidOut nodes done done t).edgeKey.length =
        .ok (laidOut nodes done done t).edgeKey.length := by
      rw [checkedU32_eq, if_pos (by rw [length_laidOut_edges]; exact hkids)]
    by_cases hsmall : (leafRows nodes done).flatten.length < u32Size
    · have hsecond : checkedU32 indexOverflow (laidOut nodes done done t).leafTokens.length =
          .ok (laidOut nodes done done t).leafTokens.length := by
        rw [checkedU32_eq, if_pos (by rw [length_laidOut_leaves]; exact hsmall)]
      obtain ⟨t', ht'⟩ : ∃ t', emitNodes nodes done [] (laidOut nodes done done t) = .ok t' := by
        rw [emitNodes, hfirst, hsecond]
        exact ⟨_, rfl⟩
      rw [if_pos hsmall, ht', emitNodes_ok nodes done t t' [] done (List.append_nil _) ht']
    · have hsecond : checkedU32 indexOverflow (laidOut nodes done done t).leafTokens.length =
          .error indexOverflow := by
        rw [checkedU32_eq, if_neg (by rw [length_laidOut_leaves]; exact hsmall)]
      rw [if_neg hsmall, emitNodes, hfirst, hsecond]
      rfl
  | b :: rest, done, hsplit => by
    have hstep := emitNodes_eq nodes order t hkids rest (done ++ [b]) (by simpa using hsplit)
    have hfirst : checkedU32 indexOverflow (laidOut nodes order done t).edgeKey.length =
        .ok (laidOut nodes order done t).edgeKey.length := by
      have hsum : (kidRows nodes order order).flatten.length =
          (kidRows nodes order done).flatten.length + (kidRows nodes order (b :: rest)).flatten.length := by
        rw [← List.length_append, ← List.flatten_append, ← kidRows_append, hsplit]
      rw [checkedU32_eq, if_pos (by rw [length_laidOut_edges]; omega)]
    rw [emitNodes, hfirst]
    show (checkedU32 indexOverflow (laidOut nodes order done t).leafTokens.length >>= _) = _
    by_cases hsmall : (laidOut nodes order done t).leafTokens.length < u32Size
    · rw [checkedU32_eq, if_pos hsmall, ← hstep, laidOut_snoc]
      rfl
    · have hbig : ¬ (leafRows nodes order).flatten.length < u32Size := by
        rw [← hsplit, leafRows_append, List.flatten_append, List.length_append]
        rw [length_laidOut_leaves] at hsmall
        omega
      rw [checkedU32_eq, if_neg hsmall, if_neg hbig]
      rfl

namespace CsrBuild

variable {s : CsrBuild} {done : List TokenRecord} {lbl : Nat → List Nat} {top : List Nat} {pre : List Byte}
  {nodes : List BuildNode}

/-- Preorder changes no number. -/
theorem Sim.preorder (hs : Sim s nodes) (hi : Inv s pre done lbl) (ho : Ordered s top done lbl) :
    preorderOf nodes = List.range s.nodeCount := by
  have hl := hi.labelled
  have hr := hi.reached
  have hrows := ho.rows
  rw [← hs.kids] at hl hr hrows
  unfold preorderOf
  rw [hs.count]
  exact Forest.preorder_eq_range hl hr ho.climbing hrows (fun i _ => childrenAt_length_le nodes i)

theorem finalOf_range {n c : Nat} (h : c < n) : finalOf (List.range n) c = c := by
  obtain ⟨hget, -⟩ := finalOf_spec (List.range n) c (List.mem_range.2 h)
  have hlt := (List.getElem?_eq_some_iff.1 hget).1
  rw [List.length_range] at hlt
  rw [List.getElem?_range hlt] at hget
  exact Option.some.inj hget

theorem Sim.kidRows_eq (hs : Sim s nodes) (hi : Inv s pre done lbl) :
    kidRows nodes (List.range s.nodeCount) (List.range s.nodeCount) =
    (List.range s.nodeCount).map (bucket s.edges) := by
  refine List.map_congr_left (fun b hb => ?_)
  rw [hs.kids]
  refine (List.map_congr_left (fun kc hkc => ?_)).trans (List.map_id _)
  obtain ⟨-, -, hlt⟩ := hi.labelled.edge b (List.mem_range.1 hb) kc hkc
  rw [finalOf_range hlt]
  rfl

theorem Sim.leafRows_eq (hs : Sim s nodes) (order : List Nat) : leafRows nodes order = entryRows s.leaves order := by
  refine List.map_congr_left (fun b _ => ?_)
  rw [hs.tokens]

/-- The leaf loop over all nodes. -/
theorem Ordered.filled (ho : Ordered s top done lbl) :
    fillLeaves (List.range s.nodeCount) s.leaves ([], []) =
      if (entryRows s.leaves (List.range s.nodeCount)).flatten.length < u32Size then
        .ok (((List.range (s.nodeCount + 1)).map (start (entryRows s.leaves (List.range s.nodeCount))),
          (entryRows s.leaves (List.range s.nodeCount)).flatten), [])
      else .error indexOverflow := by
  have hfill := fillLeaves_eq s.nodeCount 0 s.leaves [] ho.leavesUp
    (fun x hx => ⟨Nat.zero_le _, by rw [Nat.zero_add]; exact (ho.leafRecord x hx).1⟩)
  rw [← List.range_eq_range', List.nil_append, List.length_nil, Nat.zero_add] at hfill
  exact hfill

theorem Ordered.all_placed (ho : Ordered s top done lbl) (fingerprint : Nat) :
    packCsr fingerprint s ≠ .error unplacedTerminal := by
  unfold packCsr
  simp only [ho.filled]
  split
  · intro h
    cases h
  · intro h
    cases h

/-- **Packing the byte build lays out what flattening the reference build does.** -/
theorem Sim.packed (hs : Sim s nodes) (hi : Inv s pre done lbl) (ho : Ordered s top done lbl) (fingerprint : Nat) :
    packCsr fingerprint s = flatten nodes .byte fingerprint none := by
  have hout := CountingSort.scatter_out (0, 0) s.nodeCount s.edges hi.parents
  have hkids : (kidRows nodes (List.range s.nodeCount) (List.range s.nodeCount)).flatten.length < u32Size := by
    rw [hs.kidRows_eq hi, ← hout, (CountingSort.placed_scatter (0, 0) s.nodeCount s.edges hi.parents).outLen,
      List.append_nil]
    have := ho.count
    have := ho.small
    omega
  have hfill := ho.filled
  rw [← hs.leafRows_eq] at hfill
  have hemit := emitNodes_eq nodes (List.range s.nodeCount) (VocabTrie.unfilled .byte fingerprint none) hkids
    (List.range s.nodeCount) [] rfl
  have hlast : checkedU32 indexOverflow ((List.range s.nodeCount).length - 1) =
      .ok ((List.range s.nodeCount).length - 1) := by
    rw [checkedU32_eq, if_pos]
    have := ho.small
    rw [List.length_range]
    omega
  have hstart : (List.range (s.nodeCount + 1)).map (start ((List.range s.nodeCount).map (bucket s.edges))) =
      (List.range (s.nodeCount + 1)).map (offset s.edges) := by
    refine List.map_congr_left (fun i hlt => ?_)
    exact CountingSort.start_buckets s.edges s.nodeCount (Nat.le_of_lt_succ (List.mem_range.1 hlt))
  unfold packCsr flatten
  simp only [hs.preorder hi ho]
  rw [hlast]
  show (fillLeaves (List.range s.nodeCount) s.leaves ([], []) >>= _) =
    (emitNodes nodes (List.range s.nodeCount) (List.range s.nodeCount)
      (VocabTrie.unfilled .byte fingerprint none) >>= _)
  have hlaid : laidOut nodes (List.range s.nodeCount) [] (VocabTrie.unfilled .byte fingerprint none) =
      VocabTrie.unfilled .byte fingerprint none := rfl
  rw [hlaid] at hemit
  rw [hfill, hemit]
  split
  · simp only [sealed, laidOut, VocabTrie.unfilled, List.length_range, hstart, hs.kidRows_eq hi, hout]
    rfl
  · rfl

end CsrBuild

/-! ## The trie of sorted records -/

/-- **A trie holds its records exactly**: rows are readable and ascend by key, children are numbered above their
parents, the path of each record ends in a node that lists the record's ids, ascending, and no other node lists any. -/
structure VocabTrie.Exact (t : VocabTrie) (key : Byte → Nat) (records : List TokenRecord) : Prop where
  readable : ∀ i, i < t.nodeCount → (∃ kc, t.children i = .ok kc) ∧ ∃ ids, t.leafTokensOf i = .ok ids
  keysAscend : RowsAscend t.kids t.nodeCount
  childrenAbove : ∀ i, i < t.nodeCount → ∀ kc ∈ t.kids i, i < kc.2 ∧ kc.2 < t.nodeCount
  placed : ∀ r ∈ records, ∃ i, i < t.nodeCount ∧ Path t.kids 0 (r.1.map key) i ∧ (t.leaves i).Pairwise (· < ·) ∧
    ∀ tok, tok ∈ t.leaves i ↔ tok ∈ r.2
  only : ∀ i, i < t.nodeCount → t.leaves i ≠ [] → ∃ r ∈ records, Path t.kids 0 (r.1.map key) i

namespace CsrBuild

theorem byteKeys_injective {a b : List Byte} (h : a.map byteKey = b.map byteKey) : a = b :=
  List.map_injective_iff.2 (fun _ _ h => UInt8.toNat_inj.1 h) h

theorem bytes_ne {a b : List Byte} (h : a < b) : a ≠ b := by
  rintro rfl
  exact List.lt_irrefl a h

/-- A terminal of a record lists the record's ids. -/
theorem Ordered.lists_iff {s : CsrBuild} {top : List Nat} {done : List TokenRecord} {lbl : Nat → List Nat}
    (ho : Ordered s top done lbl) (hsort : done.Pairwise (fun a b => a.1 < b.1)) {r : TokenRecord} (hr : r ∈ done)
    {i : Nat} (hi : i < s.nodeCount) (hlbl : lbl i = r.1.map byteKey) (tok : Nat) :
    Lists s.leaves i tok ↔ tok ∈ r.2 := by
  obtain ⟨j, hj, hjlbl, hids⟩ := ho.placed r hr
  obtain rfl := ho.climbing.inj hj hi (hjlbl.trans hlbl.symm)
  constructor
  · rintro ⟨ids, hmem, htok⟩
    obtain ⟨-, r', hr', hl, hids'⟩ := ho.leafRecord _ hmem
    have hbytes : r'.1 = r.1 := byteKeys_injective (hl.symm.trans hlbl)
    have hnodup : (done.map Prod.fst).Nodup := (List.pairwise_map.2 hsort).imp bytes_ne
    have hsame : r' = r := List.inj_on_of_nodup_map hnodup hr' hr hbytes
    rw [← hsame, ← hids']
    exact htok
  · intro htok
    rcases hids with hnil | hmem
    · rw [hnil] at htok
      cases htok
    · exact ⟨r.2, hmem, htok⟩

theorem pushToken_error {limits : TrieBuildLimits} {s : CsrBuild} {r : TokenRecord} {e : CompileError}
    (h : pushToken limits s r = .error e) : e.code = .internalLimitExceeded := by
  have hextend : ∀ (bs : List Byte) (s : CsrBuild) (cur : Nat) (e : CompileError),
      extend limits s cur bs = .error e → e.code = .internalLimitExceeded := by
    intro bs
    induction bs with
    | nil =>
      intro s cur e h
      cases h
    | cons b bs ih =>
      intro s cur e h
      unfold extend at h
      split at h
      · cases h
        rfl
      split at h
      · cases h
        rfl
      · exact ih _ _ _ h
  unfold pushToken at h
  cases hrun : extend limits { s with path := s.path.take (commonPrefixLen s.prev r.1 + 1) }
      ((s.path.take (commonPrefixLen s.prev r.1 + 1))[commonPrefixLen s.prev r.1]?.getD 0)
      (r.1.drop (commonPrefixLen s.prev r.1)) with
  | error e' =>
    simp only [hrun] at h
    cases h
    exact hextend _ _ _ _ hrun
  | ok sc =>
    simp only [hrun] at h
    change (if r.2.isEmpty then _ else _) = _ at h
    split at h
    · cases h
    split at h
    · cases h
      rfl
    · cases h

theorem pushTokens_error {limits : TrieBuildLimits} {e : CompileError} : ∀ (rest : List TokenRecord) (s : CsrBuild),
    rest.foldlM (pushToken limits) s = .error e → e.code = .internalLimitExceeded
  | [], s, h => by cases h
  | r :: rest, s, h => by
    rw [List.foldlM_cons] at h
    cases hrun : pushToken limits s r with
    | error e' =>
      rw [hrun] at h
      cases h
      exact pushToken_error hrun
    | ok s' =>
      rw [hrun] at h
      exact pushTokens_error rest s' h

end CsrBuild

theorem VocabTrie.exact_of_tracks {limits : TrieBuildLimits} {fingerprint : Nat} {pairs : List TokenRecord}
    {s : CsrBuild} {lbl : Nat → List Nat} {nodes : List BuildNode} {t : VocabTrie}
    (hsort : pairs.Pairwise (fun a b => a.1 < b.1)) (ht : CsrBuild.Tracks limits s pairs lbl nodes)
    (hpack : packCsr fingerprint s = .ok t) : t.Exact CsrBuild.byteKey pairs := by
  obtain ⟨leaf, hrows, hleaf⟩ := packCsr_rows ht.inv hpack
  have hflat := hpack
  rw [ht.sim.packed ht.inv ht.ordered] at hflat
  obtain ⟨-, -, hrows'⟩ := flatten_ok hflat
  have hcount := hrows.count
  have hreach : ∀ i, i < s.nodeCount → Path t.kids 0 (lbl i) i := fun i hi =>
    (hrows.path ht.inv.labelled ht.inv.labelled.inhabited (ht.inv.reached i hi)).1
  refine ⟨?_, ?_, ?_, ?_, ?_⟩
  · intro i hi
    rw [hcount] at hi
    exact ⟨⟨_, hrows.kidsAt i hi⟩, ⟨_, hrows.leavesAt i hi⟩⟩
  · intro i hi
    rw [hcount] at hi
    rw [hrows.kids_eq hi]
    exact ht.ordered.rows i hi
  · intro i hi kc hkc
    rw [hcount] at hi ⊢
    rw [hrows.kids_eq hi] at hkc
    exact (ht.inv.labelled.edge i hi kc hkc).2
  · intro r hr
    obtain ⟨i, hi, hlbl, -⟩ := ht.ordered.placed r hr
    refine ⟨i, by rw [hcount]; exact hi, by rw [← hlbl]; exact hreach i hi, ?_, fun tok => ?_⟩
    · rw [hrows'.leaves_eq (by rw [← hrows'.count, hcount]; exact hi)]
      exact sortDedup_sorted _
    · rw [hrows.leaves_eq hi, hleaf i hi]
      exact ht.ordered.lists_iff hsort hr hi hlbl tok
  · intro i hi hne
    rw [hcount] at hi
    obtain ⟨tok, htok⟩ := List.exists_mem_of_ne_nil _ hne
    rw [hrows.leaves_eq hi, hleaf i hi] at htok
    obtain ⟨ids, hmem, -⟩ := htok
    obtain ⟨-, r, hr, hlbl, -⟩ := ht.ordered.leafRecord _ hmem
    exact ⟨r, hr, by rw [← hlbl]; exact hreach i hi⟩

theorem mergeSort_sorted_pairs {pairs : List TokenRecord} (hsort : pairs.Pairwise (fun a b => a.1 < b.1)) :
    pairs.mergeSort pairLe = pairs := by
  refine List.mergeSort_of_pairwise (hsort.imp (fun hab => ?_))
  simp [pairLe, hab]

/-- **On records sorted by bytes the append-only builder makes the reference builder's arrays**, they hold the records
exactly, and no terminal is left unplaced. -/
theorem buildByteCsr_refines {limits : TrieBuildLimits} {fingerprint : Nat} {pairs : List TokenRecord}
    (hsort : pairs.Pairwise (fun a b => a.1 < b.1)) :
    buildByteCsr limits fingerprint pairs ≠ .error unplacedTerminal ∧
    ∀ t, buildByteCsr limits fingerprint pairs = .ok t →
      buildFromRefs limits CsrBuild.byteKey .byte fingerprint none pairs =
        (checkTotalBytes limits pairs).map (fun _ => t) ∧
      t.Exact CsrBuild.byteKey pairs := by
  cases hrun : pairs.foldlM (CsrBuild.pushToken limits) {} with
  | error e =>
    have hcode := CsrBuild.pushTokens_error pairs {} hrun
    unfold buildByteCsr
    rw [hrun]
    refine ⟨fun h => ?_, fun t h => by cases h⟩
    obtain rfl : e = unplacedTerminal := Except.error.inj h
    cases hcode
  | ok s =>
    obtain ⟨lbl, nodes, ht, hins⟩ :=
      CsrBuild.pushTokens_tracks pairs [] {} s _ _ (CsrBuild.tracks_empty limits) (CsrBuild.sorted_empty hsort) hrun
    rw [List.nil_append] at ht
    have hbuild : buildByteCsr limits fingerprint pairs = packCsr fingerprint s := by
      unfold buildByteCsr
      rw [hrun]
      rfl
    refine ⟨by rw [hbuild]; exact ht.ordered.all_placed fingerprint, fun t h => ?_⟩
    rw [hbuild] at h
    refine ⟨?_, VocabTrie.exact_of_tracks hsort ht h⟩
    rw [ht.sim.packed ht.inv ht.ordered] at h
    unfold buildFromRefs
    rw [mergeSort_sorted_pairs hsort]
    cases checkTotalBytes limits pairs with
    | error e => rfl
    | ok u =>
      show (pairs.foldlM (insertRecord limits CsrBuild.byteKey) ([{}], 0) >>= _) = .ok t
      rw [show pairs.foldlM (insertRecord limits CsrBuild.byteKey) ([{}], 0) = .ok (nodes, s.leafIdTotal) from hins]
      exact h

/-- A token that is a prefix of another, and a record without ids. -/
theorem buildByteCsr_refines_sample :
    ∃ t, buildByteCsr {} 7 [([0x61], [1, 3]), ([0x61, 0x62], []), ([0x62], [2])] = .ok t ∧
      buildFromRefs {} CsrBuild.byteKey .byte 7 none [([0x61], [1, 3]), ([0x61, 0x62], []), ([0x62], [2])] = .ok t ∧
      t.Exact CsrBuild.byteKey [([0x61], [1, 3]), ([0x61, 0x62], []), ([0x62], [2])] := by
  obtain ⟨t, ht⟩ := exists_of_toOption
    (x := buildByteCsr {} 7 [([0x61], [1, 3]), ([0x61, 0x62], []), ([0x62], [2])]) (by decide +kernel)
  obtain ⟨hsame, hexact⟩ := (buildByteCsr_refines (by decide)).2 t ht
  exact ⟨t, ht, hsame, hexact⟩

end MaskForge
