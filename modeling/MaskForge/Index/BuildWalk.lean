import MaskForge.Index.Build
/-!
# BuildWalk — what the joint walk emits

The memo never answers for another node (`StepMemo.bump` leaves no entry of the new generation), the live-class filter
never drops a surviving step (`RefEngine.live_iff`), and a stack of trie nodes weighs less after every pop.  So the
loop emits exactly the tokens whose keys the engine survives from the start state, whatever is done with them.
-/
namespace MaskForge

open Forest (Path Labelled)

namespace StepMemo

/-- No entry is younger than the counter. -/
structure Bounded (m : StepMemo) : Prop where
  gens : m.generation.length = 256
  vals : m.value.length = 256
  counter : m.current < u32Size
  old : ∀ g ∈ m.generation, g ≤ m.current

/-- Entries of the current generation hold the steps out of `q`. -/
structure For (m : StepMemo) (e : RefEngine) (q : Nat) : Prop extends Bounded m where
  fresh : ∀ c, m.generation[c]? = some m.current → m.value[c]? = some (e.step q c)

theorem bounded_new : Bounded new := by
  refine ⟨List.length_replicate, List.length_replicate, ?_, ?_⟩
  · exact Nat.two_pow_pos 32
  · intro g hg
    exact Nat.le_of_eq (List.eq_of_mem_replicate hg)

/-- **A bumped memo answers for no node yet**, so it is good for any. -/
theorem Bounded.bump {m : StepMemo} (h : m.Bounded) (e : RefEngine) (q : Nat) : m.bump.For e q := by
  have hc := h.counter
  unfold StepMemo.bump
  split
  · refine ⟨⟨by rw [List.length_map, h.gens], h.vals, Nat.one_lt_two_pow (by omega), ?_⟩, ?_⟩
    · intro g hg
      obtain ⟨_, _, rfl⟩ := List.mem_map.1 hg
      exact Nat.zero_le _
    · intro c hcur
      simp only [List.getElem?_map, Option.map_eq_some_iff] at hcur
      obtain ⟨_, _, h0⟩ := hcur
      cases h0
  · rename_i hw
    have hlt : (m.current + 1) % u32Size = m.current + 1 := by
      apply Nat.mod_eq_of_lt
      by_contra hge
      apply hw
      have : m.current + 1 = u32Size := by omega
      rw [this, Nat.mod_self]
    refine ⟨⟨h.gens, h.vals, Nat.mod_lt _ (Nat.two_pow_pos 32), ?_⟩, ?_⟩
    · intro g hg
      have := h.old g hg
      simp only [hlt]
      omega
    · intro c hcur
      have := h.old _ (List.mem_of_getElem? hcur)
      simp only [hlt] at this
      omega

theorem For.getOr {m : StepMemo} {e : RefEngine} {q : Nat} (h : m.For e q) {c : Nat} (hc : c < 256) :
    (m.getOr c (e.step q c)).2 = e.step q c ∧ (m.getOr c (e.step q c)).1.For e q := by
  unfold StepMemo.getOr
  split
  · rename_i hg
    exact ⟨by rw [h.fresh c hg]; rfl, h⟩
  · refine ⟨rfl, ⟨by rw [List.length_set, h.gens], by rw [List.length_set, h.vals], h.counter, ?_⟩, ?_⟩
    · intro g hg
      rcases List.mem_or_eq_of_mem_set hg with hg | rfl
      · exact h.old g hg
      · exact Nat.le_refl _
    · intro c' hc'
      simp only at hc' ⊢
      by_cases hcc : c = c'
      · subst hcc
        rw [List.getElem?_set_self (by rw [h.vals]; exact hc)]
      · rw [List.getElem?_set_ne hcc] at hc' ⊢
        exact h.fresh c' hc'

end StepMemo

section Walk

variable {σ : Type} {t : VocabTrie} {e : RefEngine} {stackFuel : Nat} {emit : σ → Nat → Nat → Except CompileError σ}

/-- The engine's run over a string of edge keys. -/
def stepKeys (t : VocabTrie) (e : RefEngine) : Nat → List Nat → Option Nat
  | q, [] => some q
  | q, k :: ks =>
    if e.step q (t.classOfEdge k e) = dead then none else stepKeys t e (e.step q (t.classOfEdge k e)) ks

/-- `tok` is listed below node `n`, and the engine at `q` survives the way there and lands in `q'`. -/
def Below (t : VocabTrie) (e : RefEngine) (n q tok q' : Nat) : Prop :=
  ∃ ks j, Path t.kids n ks j ∧ tok ∈ t.leaves j ∧ stepKeys t e q ks = some q'

theorem below_iff (n q tok q' : Nat) : Below t e n q tok q' ↔ (tok ∈ t.leaves n ∧ q = q') ∨
    ∃ kc ∈ t.kids n, e.step q (t.classOfEdge kc.1 e) ≠ dead ∧
      Below t e kc.2 (e.step q (t.classOfEdge kc.1 e)) tok q' := by
  constructor
  · rintro ⟨ks, j, hp, htok, hs⟩
    cases hp with
    | nil =>
      cases hs
      exact Or.inl ⟨htok, rfl⟩
    | cons hk hp =>
      unfold stepKeys at hs
      split at hs
      · cases hs
      · rename_i hne
        exact Or.inr ⟨_, hk, hne, _, j, hp, htok, hs⟩
  · rintro (⟨htok, rfl⟩ | ⟨⟨k, c⟩, hk, hne, ks, j, hp, htok, hs⟩)
    · exact ⟨[], n, .nil n, htok, rfl⟩
    · refine ⟨k :: ks, j, .cons hk hp, htok, ?_⟩
      unfold stepKeys
      rw [if_neg hne]
      exact hs

/-- **The pushed children are the surviving ones**, each with the state its edge steps to. -/
theorem pushLive_ok {q : Nat} : ∀ (kids : List (Nat × Nat)) (memo memo' : StepMemo) (stack stack' : List (Nat × Nat)),
    memo.For e q → pushLive t e stackFuel q kids memo stack = .ok (memo', stack') →
      memo'.Bounded ∧ ∃ added, stack' = added ++ stack ∧ added.length ≤ kids.length ∧
        ∀ nq, nq ∈ added ↔ ∃ kc ∈ kids, e.step q (t.classOfEdge kc.1 e) ≠ dead ∧
          nq = (kc.2, e.step q (t.classOfEdge kc.1 e))
  | [], memo, memo', stack, stack', hm, h => by
    cases h
    exact ⟨hm.toBounded, [], rfl, Nat.le_refl _, by simp⟩
  | (key, child) :: kids, memo, memo', stack, stack', hm, h => by
    unfold pushLive at h
    simp only at h
    have hlive := e.live_iff q (t.classOfEdge key e)
    split at h
    · rename_i hl
      have hne := hlive.1 hl
      have hc : t.classOfEdge key e < 256 := BitVec.lt_of_getLsbD hl
      obtain ⟨hval, hfor⟩ := hm.getOr hc
      rw [hval, if_pos hne] at h
      split at h
      · cases h
      · obtain ⟨hb, added, rfl, hlen, hmem⟩ := pushLive_ok kids _ memo' _ stack' hfor h
        refine ⟨hb, added ++ [(child, e.step q (t.classOfEdge key e))], by simp, by simpa using hlen, ?_⟩
        intro nq
        rw [List.mem_append, hmem nq, List.mem_singleton]
        simp only [List.mem_cons, exists_eq_or_imp]
        constructor
        · rintro (h | rfl)
          · exact Or.inr h
          · exact Or.inl ⟨hne, rfl⟩
        · rintro (⟨-, rfl⟩ | h)
          · exact Or.inr rfl
          · exact Or.inl h
    · rename_i hl
      have hdead : e.step q (t.classOfEdge key e) = dead := by
        by_contra hne
        exact hl (hlive.2 hne)
      obtain ⟨hb, added, rfl, hlen, hmem⟩ := pushLive_ok kids memo memo' _ stack' hm h
      refine ⟨hb, added, rfl, by simp only [List.length_cons]; omega, fun nq => ?_⟩
      rw [hmem nq]
      simp [hdead]

theorem emitAll_eq (q : Nat) : ∀ (toks : List Nat) (acc : σ),
    emitAll emit q toks acc = (toks.map (fun tok => (tok, q))).foldlM (fun a x => emit a x.1 x.2) acc
  | [], acc => rfl
  | tok :: toks, acc => by
    unfold emitAll
    rw [List.map_cons, List.foldlM_cons]
    congr 1
    funext a
    exact emitAll_eq q toks a

/-- **What the loop emits from a stack**: the tokens below its live entries. -/
theorem walkLoop_ok {key : Byte → Nat} {records : List TokenRecord} {lbl : Nat → List Nat}
    (ht : t.Spells key records lbl) : ∀ (f : Nat) (memo memo' : StepMemo) (stack : List (Nat × Nat)) (acc acc' : σ),
    memo.Bounded → (∀ nq ∈ stack, nq.1 < t.nodeCount) →
    Worklist.weight t.nodeCount t.edgeKey.length (stack.map Prod.fst) ≤ f →
    walkLoop t e stackFuel emit f memo stack acc = .ok (memo', acc') →
      memo'.Bounded ∧ ∃ out : List (Nat × Nat), out.foldlM (fun a x => emit a x.1 x.2) acc = .ok acc' ∧
        ∀ tok q', (tok, q') ∈ out ↔ ∃ nq ∈ stack, nq.2 ≠ dead ∧ Below t e nq.1 nq.2 tok q'
  | 0, memo, memo', [], acc, acc', hm, _, _, h => by
    cases h
    exact ⟨hm, [], rfl, by simp⟩
  | 0, memo, memo', (n, q) :: rest, acc, acc', _, _, hw, _ => by
    have : 0 < (t.edgeKey.length + 1) ^ (t.nodeCount - n) := Nat.pow_pos (by omega)
    rw [List.map_cons, Worklist.weight_cons] at hw
    simp only at hw
    omega
  | f + 1, memo, memo', [], acc, acc', hm, _, _, h => by
    cases h
    exact ⟨hm, [], rfl, by simp⟩
  | f + 1, memo, memo', (n, q) :: rest, acc, acc', hm, hs, hw, h => by
    have hn : n < t.nodeCount := hs (n, q) List.mem_cons_self
    have hrest : ∀ nq ∈ rest, nq.1 < t.nodeCount := fun nq hnq => hs nq (List.mem_cons_of_mem _ hnq)
    unfold walkLoop at h
    split at h
    · -- a dead entry is skipped
      rename_i hq
      have hw' : Worklist.weight t.nodeCount t.edgeKey.length (rest.map Prod.fst) ≤ f := by
        rw [List.map_cons, Worklist.weight_cons] at hw
        simp only at hw
        have : 0 < (t.edgeKey.length + 1) ^ (t.nodeCount - n) := Nat.pow_pos (by omega)
        omega
      obtain ⟨hb, out, hout, hmem⟩ := walkLoop_ok ht f memo memo' rest acc acc' hm hrest hw' h
      refine ⟨hb, out, hout, fun tok q' => ?_⟩
      rw [hmem]
      simp [hq]
    · rename_i hq
      obtain ⟨toks, htoks, h⟩ := bind_ok h
      obtain ⟨acc₁, hemit, h⟩ := bind_ok h
      obtain ⟨kc, hkc, h⟩ := bind_ok h
      obtain ⟨⟨memo₁, stack₁⟩, hpush, h⟩ := bind_ok h
      have hkids : t.kids n = kc.1.zip kc.2 := by
        unfold VocabTrie.kids
        rw [hkc]
      have hleaves : t.leaves n = toks := by
        unfold VocabTrie.leaves
        rw [htoks]
      rw [← hkids] at hpush
      obtain ⟨hb₁, added, rfl, hlen, hadd⟩ := pushLive_ok _ _ _ _ _ (hm.bump e q) hpush
      -- every pushed node is a child of `n`
      have hchild : ∀ c ∈ added.map Prod.fst, n < c ∧ c < t.nodeCount := by
        intro c hc
        obtain ⟨nq, hnq, rfl⟩ := List.mem_map.1 hc
        obtain ⟨kc, hkc, -, rfl⟩ := (hadd nq).1 hnq
        exact (ht.labelled.edge n hn kc hkc).2
      have hfew : (added.map Prod.fst).length ≤ t.edgeKey.length := by
        rw [List.length_map]
        exact Nat.le_trans hlen (ht.few n hn)
      have hdrop := Worklist.weight_pop (added.map Prod.fst) (rest.map Prod.fst) hn hfew hchild
      rw [List.map_cons] at hw
      simp only at hw
      rw [← List.map_append] at hdrop
      have hs₁ : ∀ nq ∈ added ++ rest, nq.1 < t.nodeCount := by
        intro nq hnq
        rcases List.mem_append.1 hnq with hnq | hnq
        · exact (hchild nq.1 (List.mem_map.2 ⟨nq, hnq, rfl⟩)).2
        · exact hrest nq hnq
      obtain ⟨hb, out, hout, hmem⟩ := walkLoop_ok ht f memo₁ memo' (added ++ rest) acc₁ acc' hb₁ hs₁ (by omega) h
      refine ⟨hb, toks.map (fun tok => (tok, q)) ++ out, ?_, ?_⟩
      · rw [List.foldlM_append, ← emitAll_eq, hemit]
        exact hout
      · intro tok q'
        rw [List.mem_append, hmem tok q']
        simp only [List.mem_map, Prod.mk.injEq, List.mem_append, List.mem_cons, exists_eq_or_imp]
        rw [below_iff n q tok q', hleaves]
        constructor
        · rintro (⟨tok, htok, rfl, rfl⟩ | ⟨nq, hnq | hnq, hne, hbelow⟩)
          · exact Or.inl ⟨hq, Or.inl ⟨htok, rfl⟩⟩
          · obtain ⟨kc, hkc, hne', rfl⟩ := (hadd nq).1 hnq
            exact Or.inl ⟨hq, Or.inr ⟨kc, hkc, hne', hbelow⟩⟩
          · exact Or.inr ⟨nq, hnq, hne, hbelow⟩
        · rintro (⟨-, ⟨htok, rfl⟩ | ⟨kc, hkc, hne, hbelow⟩⟩ | ⟨nq, hnq, hne, hbelow⟩)
          · exact Or.inl ⟨tok, htok, rfl, rfl⟩
          · exact Or.inr ⟨_, Or.inl ((hadd _).2 ⟨kc, hkc, hne, rfl⟩), hne, hbelow⟩
          · exact Or.inr ⟨nq, Or.inr hnq, hne, hbelow⟩

/-- The edge keys of a trie stand for the classes of the bytes they were made from. -/
def KeysFit (t : VocabTrie) (e : RefEngine) (key : Byte → Nat) : Prop :=
  ∀ b, t.classOfEdge (key b) e = e.classOfByte b

theorem stepKeys_eq {key : Byte → Nat} (hk : KeysFit t e key) : ∀ (bs : List Byte) (q : Nat), q ≠ dead →
    stepKeys t e q (bs.map key) = e.consumeToken q bs
  | [], q, _ => rfl
  | b :: bs, q, hq => by
    rw [List.map_cons]
    unfold stepKeys RefEngine.consumeToken
    rw [if_neg hq, hk b]
    split
    · rfl
    · rename_i hne
      exact stepKeys_eq hk bs _ hne

/-- **The walk emits exactly the tokens the engine survives**, each with the state it lands in. -/
theorem walkLiveSubtree_ok {key : Byte → Nat} {records : List TokenRecord} {lbl : Nat → List Nat}
    (ht : t.Spells key records lbl) (hk : KeysFit t e key) (hne : ∀ r ∈ records, r.1 ≠ []) {memo memo' : StepMemo}
    {s : Nat} {acc acc' : σ} (hm : memo.Bounded)
    (h : walkLiveSubtree t e stackFuel emit memo s acc = .ok (memo', acc')) :
    memo'.Bounded ∧ ∃ out : List (Nat × Nat), out.foldlM (fun a x => emit a x.1 x.2) acc = .ok acc' ∧
      ∀ tok q', (tok, q') ∈ out ↔ ∃ r ∈ records, tok ∈ r.2 ∧ e.consumeToken s r.1 = some q' := by
  have hpos := ht.labelled.inhabited
  obtain ⟨hb, out, hout, hmem⟩ := walkLoop_ok ht _ memo memo' [(0, s)] acc acc' hm (by simpa using hpos)
    (by rw [← Worklist.weight_root]; exact Nat.le_refl _) h
  refine ⟨hb, out, hout, fun tok q' => ?_⟩
  rw [hmem]
  simp only [List.mem_singleton, exists_eq_left]
  constructor
  · rintro ⟨hs, ks, j, hp, htok, hstep⟩
    obtain ⟨hlbl, hj⟩ := hp.label ht.labelled hpos
    rw [ht.labelled.root, List.nil_append] at hlbl
    obtain ⟨r, hr, hid, hrl⟩ := ht.sound j hj tok htok
    refine ⟨r, hr, hid, ?_⟩
    rw [← stepKeys_eq hk r.1 s hs, hrl, hlbl]
    exact hstep
  · rintro ⟨r, hr, hid, hc⟩
    have hs : s ≠ dead := by
      rintro rfl
      rw [e.consumeToken_dead (hne r hr)] at hc
      cases hc
    obtain ⟨i, hp, htok⟩ := ht.complete r hr tok hid
    exact ⟨hs, _, i, hp, htok, by rw [stepKeys_eq hk r.1 s hs]; exact hc⟩

end Walk

/-! ## The two alphabets -/

theorem keysFit_byte {t : VocabTrie} (e : RefEngine) (h : t.kind = .byte) : KeysFit t e CsrBuild.byteKey := by
  intro b
  unfold VocabTrie.classOfEdge
  rw [h]
  simp [CsrBuild.byteKey]

theorem keysFit_classes {t : VocabTrie} (e : RefEngine) (h : t.kind = .classes) : KeysFit t e e.classOfByte := by
  intro b
  unfold VocabTrie.classOfEdge
  rw [h]

/-! ## What each consumer keeps -/

section Consumers

variable {t : VocabTrie} {e : RefEngine} {key : Byte → Nat} {records : List TokenRecord} {lbl : Nat → List Nat}

/-- `tok` is a token of some record whose bytes the engine survives from `s`. -/
def Survives (e : RefEngine) (records : List TokenRecord) (s tok : Nat) : Prop :=
  ∃ r ∈ records, tok ∈ r.2 ∧ (e.consumeToken s r.1).isSome

theorem survives_iff (s tok : Nat) :
    Survives e records s tok ↔ ∃ q', ∃ r ∈ records, tok ∈ r.2 ∧ e.consumeToken s r.1 = some q' := by
  unfold Survives
  constructor
  · rintro ⟨r, hr, h1, h2⟩
    obtain ⟨q', hq⟩ := Option.isSome_iff_exists.1 h2
    exact ⟨q', r, hr, h1, hq⟩
  · rintro ⟨q', r, hr, h1, h2⟩
    exact ⟨r, hr, h1, by rw [h2]; rfl⟩

theorem foldlM_set_ok : ∀ (out : List (Nat × Nat)) (m m' : Bitmask), m.Tidy →
    out.foldlM (fun (m : Bitmask) x => m.set x.1) m = .ok m' →
      m'.Tidy ∧ m'.vocabSize = m.vocabSize ∧ ∀ j, m'.get j = true ↔ m.get j = true ∨ ∃ q, (j, q) ∈ out
  | [], m, m', hm, h => by
    cases h
    simpa using hm
  | x :: out, m, m', hm, h => by
    rw [List.foldlM_cons] at h
    obtain ⟨m₁, h₁, h₂⟩ := bind_ok h
    obtain ⟨htidy, hsize, hg⟩ := Bitmask.get_set hm h₁
    obtain ⟨hs, hv, hj⟩ := foldlM_set_ok out m₁ m' htidy h₂
    refine ⟨hs, hv.trans hsize, fun j => ?_⟩
    rw [hj j, hg j]
    simp only [Bool.or_eq_true, decide_eq_true_eq, List.mem_cons]
    constructor
    · rintro ((h | rfl) | ⟨q, hq⟩)
      · exact Or.inl h
      · exact Or.inr ⟨x.2, Or.inl rfl⟩
      · exact Or.inr ⟨q, Or.inr hq⟩
    · rintro (h | ⟨q, rfl | hq⟩)
      · exact Or.inl (Or.inl h)
      · exact Or.inl (Or.inr rfl)
      · exact Or.inr ⟨q, hq⟩

/-- **The lazy walk's mask.** -/
theorem walkStateMaskInto_ok (ht : t.Spells key records lbl) (hk : KeysFit t e key) (hne : ∀ r ∈ records, r.1 ≠ [])
    {permit : Permit} {s n : Nat} {m : Bitmask} (h : walkStateMaskInto t e permit s (Bitmask.zeros n) = .ok m) :
    m.Tidy ∧ m.vocabSize = n ∧ ∀ j, m.get j = true ↔ Survives e records s j := by
  unfold walkStateMaskInto at h
  split at h
  · cases h
  obtain ⟨-, -, h⟩ := bind_ok h
  obtain ⟨⟨memo', m'⟩, hwalk, h⟩ := bind_ok h
  cases h
  obtain ⟨-, out, hout, hmem⟩ := walkLiveSubtree_ok ht hk hne StepMemo.bounded_new hwalk
  obtain ⟨hs, hv, hj⟩ := foldlM_set_ok out _ _ (Bitmask.tidy_zeros n) hout
  refine ⟨hs, hv, fun j => ?_⟩
  rw [hj j, survives_iff]
  simp [hmem]

theorem foldlM_push_ok {limits : IndexBuildLimits} : ∀ (out : List (Nat × Nat)) (a a' : DeltaAcc),
    out.foldlM (fun a x => DeltaAcc.push limits a x.1 x.2) a = .ok a' → a'.entries = a.entries ++ out
  | [], a, a', h => by
    cases h
    simp
  | x :: out, a, a', h => by
    rw [List.foldlM_cons] at h
    obtain ⟨a₁, h₁, h₂⟩ := bind_ok h
    have hrest := foldlM_push_ok out a₁ a' h₂
    unfold DeltaAcc.push at h₁
    split at h₁
    · cases h₁
    split at h₁
    · cases h₁
    · cases h₁
      rw [hrest]
      simp

/-- **Every eager row**: a state's row lists the tokens it survives with the states they land in. -/
theorem deltaRows_ok {limits : IndexBuildLimits} (ht : t.Spells key records lbl) (hk : KeysFit t e key)
    (hne : ∀ r ∈ records, r.1 ≠ []) : ∀ (ss : List Nat) (memo : StepMemo) (used : Nat) (rows : List (List (Nat × Nat))),
    memo.Bounded → deltaRows limits t e ss memo used = .ok rows → rows.length = ss.length ∧
      ∀ (i s : Nat) (row : List (Nat × Nat)), ss[i]? = some s → rows[i]? = some row →
        ∀ tok q', (tok, q') ∈ row ↔ ∃ r ∈ records, tok ∈ r.2 ∧ e.consumeToken s r.1 = some q'
  | [], memo, used, rows, _, h => by
    cases h
    simp
  | s :: ss, memo, used, rows, hm, h => by
    unfold deltaRows at h
    obtain ⟨⟨memo₁, a⟩, hwalk, h⟩ := bind_ok h
    obtain ⟨rows', hrows, h⟩ := bind_ok h
    cases h
    obtain ⟨hb, out, hout, hmem⟩ := walkLiveSubtree_ok ht hk hne hm hwalk
    have hentries : a.entries = out := by simpa using foldlM_push_ok out _ _ hout
    obtain ⟨hlen, hrest⟩ := deltaRows_ok ht hk hne ss memo₁ _ rows' hb hrows
    refine ⟨by simp [hlen], ?_⟩
    rintro (_ | i) s' row hs hrow
    · cases hs
      cases hrow
      simp only [hentries]
      exact hmem
    · exact hrest i s' row hs hrow

theorem foldlM_packed_ok {n : Nat} : ∀ (out : List (Nat × Nat)) (row row' : List Word),
    row.length = divCeil n wordBits → out.foldlM (fun row x => setPacked n row x.1) row = .ok row' →
      row'.length = divCeil n wordBits ∧ (∀ j, (∃ q, (j, q) ∈ out) → j < n) ∧
        ∀ j, Bitmask.testBit row' j = true ↔ Bitmask.testBit row j = true ∨ ∃ q, (j, q) ∈ out
  | [], row, row', hl, h => by
    cases h
    simpa using hl
  | x :: out, row, row', hl, h => by
    rw [List.foldlM_cons] at h
    obtain ⟨row₁, h₁, h₂⟩ := bind_ok h
    unfold setPacked at h₁
    split at h₁
    · cases h₁
    rename_i hx
    cases h₁
    have hl₁ : (Bitmask.setBit row x.1).length = divCeil n wordBits := by simpa [Bitmask.setBit] using hl
    obtain ⟨hlen, hlt, hj⟩ := foldlM_packed_ok out _ row' hl₁ h₂
    have hroom : x.1 / wordBits < row.length := by
      rw [hl]
      exact Bitmask.divCeil_spec _ _ (by omega)
    refine ⟨hlen, ?_, fun j => ?_⟩
    · rintro j ⟨q, hq⟩
      rcases List.mem_cons.1 hq with rfl | hq
      · simp only at hx
        omega
      · exact hlt j ⟨q, hq⟩
    · rw [hj j, Bitmask.testBit_setBit _ _ _ hroom]
      simp only [Bool.or_eq_true, decide_eq_true_eq, List.mem_cons]
      constructor
      · rintro ((h | rfl) | ⟨q, hq⟩)
        · exact Or.inl h
        · exact Or.inr ⟨x.2, Or.inl rfl⟩
        · exact Or.inr ⟨q, Or.inr hq⟩
      · rintro (h | ⟨q, rfl | hq⟩)
        · exact Or.inl (Or.inl h)
        · exact Or.inl (Or.inr rfl)
        · exact Or.inr ⟨q, hq⟩

/-- **Every packed row**: its bits are the tokens the state survives, all below the mask's size. -/
theorem packedRows_ok {n fuel : Nat} (ht : t.Spells key records lbl) (hk : KeysFit t e key)
    (hne : ∀ r ∈ records, r.1 ≠ []) : ∀ (ss : List Nat) (memo : StepMemo) (rows : List (List Word)),
    memo.Bounded → packedRows t e (divCeil n wordBits) n fuel ss memo = .ok rows →
      rows.length = ss.length ∧ (∀ row ∈ rows, row.length = divCeil n wordBits) ∧
      ∀ (i s : Nat) (row : List Word), ss[i]? = some s → rows[i]? = some row →
        ∀ j, (Bitmask.testBit row j = true ↔ Survives e records s j) ∧ (Survives e records s j → j < n)
  | [], memo, rows, _, h => by
    cases h
    simp
  | s :: ss, memo, rows, hm, h => by
    unfold packedRows at h
    obtain ⟨⟨memo₁, row₀⟩, hwalk, h⟩ := bind_ok h
    obtain ⟨rows', hrows, h⟩ := bind_ok h
    cases h
    obtain ⟨hb, out, hout, hmem⟩ := walkLiveSubtree_ok ht hk hne hm hwalk
    obtain ⟨hlen₀, hlt, hj⟩ := foldlM_packed_ok out _ _ (by simp) hout
    obtain ⟨hlen, hwidth, hrest⟩ := packedRows_ok ht hk hne ss memo₁ rows' hb hrows
    refine ⟨by simp [hlen], ?_, ?_⟩
    · intro row hrow
      rcases List.mem_cons.1 hrow with rfl | hrow
      · exact hlen₀
      · exact hwidth row hrow
    · rintro (_ | i) s' row hs hrow
      · cases hs
        cases hrow
        intro j
        have hout : (∃ q, (j, q) ∈ out) ↔ Survives e records s j := by
          rw [survives_iff]
          simp [hmem]
        refine ⟨?_, fun h => hlt j (hout.2 h)⟩
        rw [hj j, hout, Bitmask.testBit_replicate]
        simp
      · exact hrest i s' row hs hrow

end Consumers
end MaskForge
