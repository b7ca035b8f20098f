import MaskForge.Index.BuildWalk
import MaskForge.Index.Slice
import MaskForge.Lib.StackHeight
/-!
# StackFuel — the joint walk stays within the frontier of its trie

`compute_max_dfs_frontier` walks the whole trie and keeps the height of its highest stack; the joint walk leaves out the
children the engine does not survive and refuses to push past that height.  Each turn of its loop is a pruned pop of the
full walk (`Turn.pruned`), so no stack of it is higher, and a push is never refused.
-/
namespace MaskForge

open CountingSort (slice)
open Forest (Path)
open Relation (ReflTransGen)
open StackHeight (Full Pruned heights)

/-! ## The full walk -/

namespace VocabTrie

/-- The children of a node, in the order they are pushed. -/
def childNodes (t : VocabTrie) (n : Nat) : List Nat := (t.kids n).map Prod.snd

/-- The tries the crate builds: its four builders, each under any limits and from any input. -/
inductive Built (t : VocabTrie) : Prop where
  | byte (limits : TrieBuildLimits) (fingerprint : Nat) (pairs : List TokenRecord) :
    buildByteLimited limits fingerprint pairs = .ok t → Built t
  | filtered {eos : Nat} (p : PreparedVocabulary eos) (fingerprint : Nat) (keep : List Byte → Bool) :
    buildByteFilteredFromPrepared p fingerprint keep = .ok t → Built t
  | classes (d : Digests) (limits : TrieBuildLimits) (fingerprint : Nat) (e : RefEngine) (pairs : List TokenRecord) :
    buildClassLimited d limits fingerprint e pairs = .ok t → Built t
  | reference (limits : TrieBuildLimits) (fingerprint : Nat) (pairs : List TokenRecord) :
    buildFromRefs limits CsrBuild.byteKey .byte fingerprint none pairs = .ok t → Built t

/-- What every builder leaves: edge arrays of one length, the frontier of the arrays, and a labelled forest. -/
structure Shaped (t : VocabTrie) : Prop where
  edges : t.edgeKey.length = t.childNode.length
  frontier : t.maxDfsFrontier = computeMaxDfsFrontier t.firstChild t.childNode
  spells : ∃ key records lbl, t.Spells key records lbl

theorem shaped_of_byteCsr {t : VocabTrie} {limits : TrieBuildLimits} {fingerprint : Nat} {pairs : List TokenRecord}
    (h : buildByteCsr limits fingerprint pairs = .ok t) : t.Shaped := by
  obtain ⟨-, lbl, hspells⟩ := buildByteCsr_spells h
  unfold buildByteCsr at h
  obtain ⟨s, -, h⟩ := bind_ok h
  unfold packCsr at h
  obtain ⟨filled, -, h⟩ := bind_ok h
  split at h
  · cases h
    exact ⟨by simp, rfl, _, _, lbl, hspells⟩
  · cases h

theorem shaped_of_refs {t : VocabTrie} {limits : TrieBuildLimits} {key : Byte → Nat} {kind : TrieKind}
    {fingerprint : Nat} {partition : Option Nat} {pairs : List TokenRecord}
    (h : buildFromRefs limits key kind fingerprint partition pairs = .ok t) : t.Shaped := by
  obtain ⟨-, -, lbl, hspells⟩ := buildFromRefs_spells h
  unfold buildFromRefs at h
  obtain ⟨-, -, h⟩ := bind_ok h
  obtain ⟨s, -, h⟩ := bind_ok h
  unfold flatten at h
  obtain ⟨-, -, h⟩ := bind_ok h
  obtain ⟨t₁, hemit, h⟩ := bind_ok h
  have hsealed := emitNodes_ok s.1 (preorderOf s.1) (unfilled kind fingerprint partition) t₁ (preorderOf s.1)
    [] rfl hemit
  subst hsealed
  cases h
  refine ⟨?_, rfl, _, _, lbl, hspells⟩
  show ((kidRows s.1 _ _).flatten.map Prod.fst).length = ((kidRows s.1 _ _).flatten.map Prod.snd).length
  rw [List.length_map, List.length_map]

theorem Built.shaped {t : VocabTrie} (h : t.Built) : t.Shaped := by
  cases h with
  | byte limits fingerprint pairs h =>
    unfold buildByteLimited at h
    split at h
    · cases h
    obtain ⟨-, -, h⟩ := bind_ok h
    exact shaped_of_byteCsr h
  | filtered p fingerprint keep h =>
    obtain ⟨-, -, h⟩ := bind_ok h
    exact shaped_of_byteCsr h
  | classes d limits fingerprint e pairs h =>
    unfold buildClassLimited at h
    split at h
    · cases h
    exact shaped_of_refs h
  | reference limits fingerprint pairs h => exact shaped_of_refs h

/-- A node past the last has no children. -/
theorem childNodes_past {t : VocabTrie} {n : Nat} (h : t.nodeCount ≤ n) : t.childNodes n = [] := by
  have hnone : t.firstChild[n + 1]? = none := List.getElem?_eq_none (by unfold nodeCount at h; omega)
  unfold childNodes kids children range
  rw [hnone]
  cases t.firstChild[n]? <;> rfl

theorem Spells.above {t : VocabTrie} {key : Byte → Nat} {records : List TokenRecord} {lbl : Nat → List Nat}
    (ht : t.Spells key records lbl) {n c : Nat} (hc : c ∈ t.childNodes n) : n < c ∧ c < t.nodeCount := by
  rcases Nat.lt_or_ge n t.nodeCount with hn | hn
  · obtain ⟨kc, hkc, rfl⟩ := List.mem_map.1 hc
    exact (ht.labelled.edge n hn kc hkc).2
  · rw [childNodes_past hn] at hc
    cases hc

/-- No chain of children goes on for ever: they are numbered upwards, below the node count. -/
theorem Spells.wellFounded {t : VocabTrie} {key : Byte → Nat} {records : List TokenRecord} {lbl : Nat → List Nat}
    (ht : t.Spells key records lbl) : WellFounded fun c n => c ∈ t.childNodes n := by
  refine Subrelation.wf ?_ (measure (fun n => t.nodeCount - n)).wf
  intro c n hc
  have := ht.above hc
  show t.nodeCount - c < t.nodeCount - n
  omega

theorem Spells.ascending {t : VocabTrie} {key : Byte → Nat} {records : List TokenRecord} {lbl : Nat → List Nat}
    (ht : t.Spells key records lbl) : Worklist.Ascending t.childNodes t.nodeCount t.edgeKey.length := by
  refine ⟨fun i hi => ?_, fun i _ c hc => ht.above hc⟩
  unfold childNodes
  rw [List.length_map]
  exact ht.few i hi

/-- The rows the frontier is computed from are the ones the walk reads. -/
theorem Shaped.rows {t : VocabTrie} (h : t.Shaped) (n : Nat) :
    slice t.childNode (t.firstChild[n]?.getD 0) (t.firstChild[n + 1]?.getD 0) = t.childNodes n := by
  unfold childNodes kids children range
  cases hlo : t.firstChild[n]? with
  | none =>
    rw [List.getElem?_eq_none (Nat.le_succ_of_le (List.getElem?_eq_none_iff.1 hlo))]
    simp [slice, Except.bind, bind]
  | some lo =>
    cases hhi : t.firstChild[n + 1]? with
    | none => simp [slice, Except.bind, bind]
    | some hi =>
      have hlen : (slice t.edgeKey lo hi).length = (slice t.childNode lo hi).length := by
        simp only [slice, List.length_take, List.length_drop, h.edges]
      exact (List.map_snd_zip (Nat.le_of_eq hlen.symm)).symm

end VocabTrie

/-- **The stack loop of the frontier returns the height of the highest stack it has seen.** -/
theorem frontierLoop_isGreatest {kids : Nat → List Nat} {n e : Nat} (hk : Worklist.Ascending kids n e) :
    ∀ (f : Nat) (stack : List Nat) (maximum : Nat), (∀ i ∈ stack, i < n) → Worklist.weight n e stack ≤ f →
      stack.length ≤ maximum → IsGreatest (insert maximum (heights kids stack)) (frontierLoop kids f stack maximum)
  | 0, i :: rest, maximum, _, hw, _ => by
    have : 0 < (e + 1) ^ (n - i) := Nat.pow_pos (by omega)
    rw [Worklist.weight_cons] at hw
    omega
  | 0, [], maximum, _, _, _ => by
    rw [StackHeight.heights_nil]
    exact ⟨Or.inl rfl, by rintro k (rfl | rfl) <;> simp [frontierLoop]⟩
  | f + 1, [], maximum, _, _, _ => by
    rw [StackHeight.heights_nil]
    exact ⟨Or.inl rfl, by rintro k (rfl | rfl) <;> simp [frontierLoop]⟩
  | f + 1, i :: rest, maximum, hs, hw, hmax => by
    have hi : i < n := hs i List.mem_cons_self
    have hfew : (kids i).reverse.length ≤ e := by
      rw [List.length_reverse]
      exact hk.few i hi
    have hchild : ∀ c ∈ (kids i).reverse, i < c ∧ c < n := fun c hc => hk.above i hi c (List.mem_reverse.1 hc)
    have hdrop := Worklist.weight_pop (kids i).reverse rest hi hfew hchild
    have hs' : ∀ j ∈ (kids i).reverse ++ rest, j < n := by
      intro j hj
      rcases List.mem_append.1 hj with hj | hj
      · exact (hchild j hj).2
      · exact hs j (List.mem_cons_of_mem _ hj)
    obtain ⟨hin, hle⟩ := frontierLoop_isGreatest hk f ((kids i).reverse ++ rest)
      (max maximum ((kids i).reverse ++ rest).length) hs' (by omega) (Nat.le_max_right _ _)
    rw [StackHeight.heights_cons]
    unfold frontierLoop
    refine ⟨?_, ?_⟩
    · rcases hin with hin | hin
      · rcases Nat.le_total maximum ((kids i).reverse ++ rest).length with hm | hm
        · rw [hin, Nat.max_eq_right hm]
          exact Or.inr (Or.inr ⟨_, .refl, rfl⟩)
        · rw [hin, Nat.max_eq_left hm]
          exact Or.inl rfl
      · exact Or.inr (Or.inr hin)
    · have htop := hle (Or.inl rfl)
      rintro k (rfl | rfl | hk)
      · exact Nat.le_trans (Nat.le_max_left _ _) htop
      · exact Nat.le_trans hmax (Nat.le_trans (Nat.le_max_left _ _) htop)
      · exact hle (Or.inr hk)

/-- **The frontier of a trie is the height of its full walk.** -/
theorem VocabTrie.Shaped.isGreatest {t : VocabTrie} (h : t.Shaped) :
    IsGreatest (heights t.childNodes [0]) t.maxDfsFrontier := by
  obtain ⟨key, records, lbl, ht⟩ := h.spells
  have hpos : 0 < t.nodeCount := ht.labelled.inhabited
  have hone : insert 1 (heights t.childNodes [0]) = heights t.childNodes [0] :=
    Set.insert_eq_of_mem ⟨[0], .refl, rfl⟩
  rw [h.frontier, ← hone]
  unfold computeMaxDfsFrontier
  rw [if_neg (by unfold nodeCount at hpos; omega), funext h.rows, ← h.edges]
  exact frontierLoop_isGreatest ht.ascending _ [0] 1 (by simpa using hpos)
    (by rw [← Worklist.weight_root]; exact Nat.le_refl _) (Nat.le_refl _)

/-! ## The joint walk, turn by turn -/

/-- What the loop refuses a push with. -/
def stackFull : CompileError := indexLimit "joint-walk stack exceeds the build fuel"

/-- The variables of the loop. -/
structure WalkState (σ : Type) where
  memo : StepMemo
  stack : List (Nat × Nat)
  acc : σ

section Walk

variable {σ : Type} (t : VocabTrie) (e : RefEngine) (stackFuel : Nat) (emit : σ → Nat → Nat → Except CompileError σ)

/-- One turn of `walkLoop`: a dead entry is skipped, any other has its tokens emitted and its live children pushed. -/
inductive Turn : WalkState σ → WalkState σ → Prop where
  | skip {memo : StepMemo} {n : Nat} {rest : List (Nat × Nat)} {acc : σ} :
    Turn ⟨memo, (n, dead) :: rest, acc⟩ ⟨memo, rest, acc⟩
  | expand {memo memo' : StepMemo} {n q : Nat} {rest stack : List (Nat × Nat)} {acc acc' : σ} {toks : List Nat}
      {kc : List Nat × List Nat} :
    q ≠ dead → t.leafTokensOf n = .ok toks → emitAll emit q toks acc = .ok acc' → t.children n = .ok kc →
    pushLive t e stackFuel q (kc.1.zip kc.2) memo.bump rest = .ok (memo', stack) →
    Turn ⟨memo, (n, q) :: rest, acc⟩ ⟨memo', stack, acc'⟩

/-- A turn that ends the walk with an error, and where the error is from. -/
inductive Fails : WalkState σ → CompileError → Prop where
  | leaves {memo : StepMemo} {n q : Nat} {rest : List (Nat × Nat)} {acc : σ} {err : CompileError} :
    t.leafTokensOf n = .error err → Fails ⟨memo, (n, q) :: rest, acc⟩ err
  | emit {memo : StepMemo} {n q : Nat} {rest : List (Nat × Nat)} {acc : σ} {toks : List Nat} {err : CompileError} :
    emitAll emit q toks acc = .error err → Fails ⟨memo, (n, q) :: rest, acc⟩ err
  | children {memo : StepMemo} {n q : Nat} {rest : List (Nat × Nat)} {acc : σ} {err : CompileError} :
    t.children n = .error err → Fails ⟨memo, (n, q) :: rest, acc⟩ err
  | push {memo : StepMemo} {n q : Nat} {rest : List (Nat × Nat)} {acc : σ} {kc : List Nat × List Nat}
      {err : CompileError} :
    t.children n = .ok kc → pushLive t e stackFuel q (kc.1.zip kc.2) memo.bump rest = .error err →
    Fails ⟨memo, (n, q) :: rest, acc⟩ err

/-- The states a walk from `s` goes through. -/
def Walks (memo : StepMemo) (s : Nat) (acc : σ) : WalkState σ → Prop :=
  ReflTransGen (Turn t e stackFuel emit) ⟨memo, [(0, s)], acc⟩

end Walk

section Bound

variable {σ : Type} {t : VocabTrie} {e : RefEngine} {stackFuel : Nat} {emit : σ → Nat → Nat → Except CompileError σ}

/-- The children after the first go on top of it. -/
theorem reverse_nodes (kc : Nat × Nat) (kids : List (Nat × Nat)) :
    ((kc :: kids).map Prod.snd).reverse = (kids.map Prod.snd).reverse ++ [kc.2] := by
  rw [List.map_cons, List.reverse_cons]

theorem sublist_nodes_cons {added : List Nat} {kids : List (Nat × Nat)} (kc : Nat × Nat)
    (h : added.Sublist (kids.map Prod.snd).reverse) : added.Sublist ((kc :: kids).map Prod.snd).reverse := by
  rw [reverse_nodes]
  exact h.trans (List.sublist_append_left _ _)

/-- What is pushed is some of the children, the last on top. -/
theorem pushLive_sublist {q : Nat} :
    ∀ (kids : List (Nat × Nat)) {memo memo' : StepMemo} {stack stack' : List (Nat × Nat)},
    pushLive t e stackFuel q kids memo stack = .ok (memo', stack') →
      ∃ added, stack' = added ++ stack ∧ (added.map Prod.fst).Sublist (kids.map Prod.snd).reverse
  | [], memo, memo', stack, stack', h => by
    cases h
    exact ⟨[], rfl, List.Sublist.refl _⟩
  | (key, child) :: kids, memo, memo', stack, stack', h => by
    unfold pushLive at h
    simp only at h
    split at h
    · split at h
      · split at h
        · cases h
        · obtain ⟨added, rfl, hsub⟩ := pushLive_sublist kids h
          refine ⟨added ++ [(child, _)], by rw [List.append_assoc]; rfl, ?_⟩
          rw [List.map_append, List.map_singleton, reverse_nodes]
          exact hsub.append (List.Sublist.refl _)
      · obtain ⟨added, rfl, hsub⟩ := pushLive_sublist kids h
        exact ⟨added, rfl, sublist_nodes_cons _ hsub⟩
    · obtain ⟨added, rfl, hsub⟩ := pushLive_sublist kids h
      exact ⟨added, rfl, sublist_nodes_cons _ hsub⟩

/-- **A refused push would have made the stack higher than the fuel**, with some of the children on it. -/
theorem pushLive_error {q : Nat} {err : CompileError} : ∀ (kids : List (Nat × Nat)) {memo : StepMemo}
    {stack : List (Nat × Nat)}, pushLive t e stackFuel q kids memo stack = .error err →
      err = stackFull ∧ ∃ added : List Nat, added.Sublist (kids.map Prod.snd).reverse ∧
        stackFuel < added.length + stack.length
  | [], memo, stack, h => by cases h
  | (key, child) :: kids, memo, stack, h => by
    unfold pushLive at h
    simp only at h
    split at h
    · split at h
      · split at h
        · rename_i hfull
          cases h
          refine ⟨rfl, [child], ?_, ?_⟩
          · rw [reverse_nodes]
            exact List.sublist_append_right _ _
          · rw [List.length_singleton]
            omega
        · obtain ⟨herr, added, hsub, hlt⟩ := pushLive_error kids h
          refine ⟨herr, added ++ [child], ?_, ?_⟩
          · rw [reverse_nodes]
            exact hsub.append (List.Sublist.refl _)
          · rw [List.length_append, List.length_singleton]
            rw [List.length_cons] at hlt
            omega
      · obtain ⟨herr, added, hsub, hlt⟩ := pushLive_error kids h
        exact ⟨herr, added, sublist_nodes_cons _ hsub, hlt⟩
    · obtain ⟨herr, added, hsub, hlt⟩ := pushLive_error kids h
      exact ⟨herr, added, sublist_nodes_cons _ hsub, hlt⟩

/-- The children the walk zips are the ones the full walk pushes. -/
theorem childNodes_of_children {n : Nat} {kc : List Nat × List Nat} (h : t.children n = .ok kc) :
    t.childNodes n = (kc.1.zip kc.2).map Prod.snd := by
  unfold VocabTrie.childNodes VocabTrie.kids
  rw [h]

/-- **A turn of the joint walk is a pruned pop of the full walk.** -/
theorem Turn.pruned {w w' : WalkState σ} (h : Turn t e stackFuel emit w w') :
    Pruned t.childNodes (w.stack.map Prod.fst) (w'.stack.map Prod.fst) := by
  cases h with
  | skip => exact .pop _ _ (List.nil_sublist _)
  | expand hq hleaves hemit hkc hpush =>
    obtain ⟨added, rfl, hsub⟩ := pushLive_sublist _ hpush
    rw [List.map_append]
    refine .pop _ _ ?_
    rw [childNodes_of_children hkc]
    exact hsub

theorem Walks.pruned {memo : StepMemo} {s : Nat} {acc : σ} {w : WalkState σ}
    (h : Walks t e stackFuel emit memo s acc w) :
    ReflTransGen (Pruned t.childNodes) [0] (w.stack.map Prod.fst) :=
  ReflTransGen.lift (fun w : WalkState σ => w.stack.map Prod.fst) (fun _ _ hturn => hturn.pruned) _ _ h

/-- **A walk that fails does so at a turn it comes to.** -/
theorem walkLoop_error {err : CompileError} : ∀ (f : Nat) (w : WalkState σ),
    walkLoop t e stackFuel emit f w.memo w.stack w.acc = .error err →
      ∃ w', ReflTransGen (Turn t e stackFuel emit) w w' ∧ Fails t e stackFuel emit w' err
  | 0, ⟨memo, stack, acc⟩, h => by cases h
  | f + 1, ⟨memo, [], acc⟩, h => by cases h
  | f + 1, ⟨memo, (n, q) :: rest, acc⟩, h => by
    unfold walkLoop at h
    split at h
    · rename_i hq
      subst hq
      obtain ⟨w', hw, hfail⟩ := walkLoop_error f ⟨memo, rest, acc⟩ h
      exact ⟨w', .head .skip hw, hfail⟩
    · rename_i hq
      rcases bind_error h with hleaves | ⟨toks, hleaves, h⟩
      · exact ⟨_, .refl, .leaves hleaves⟩
      rcases bind_error h with hemit | ⟨acc₁, hemit, h⟩
      · exact ⟨_, .refl, .emit hemit⟩
      rcases bind_error h with hkc | ⟨kc, hkc, h⟩
      · exact ⟨_, .refl, .children hkc⟩
      rcases bind_error h with hpush | ⟨⟨memo₁, stack₁⟩, hpush, h⟩
      · exact ⟨_, .refl, .push hkc hpush⟩
      obtain ⟨w', hw, hfail⟩ := walkLoop_error f ⟨memo₁, stack₁, acc₁⟩ h
      exact ⟨w', .head (.expand hq hleaves hemit hkc hpush) hw, hfail⟩

theorem emitAll_error {q : Nat} {err : CompileError} : ∀ (toks : List Nat) {acc : σ},
    emitAll emit q toks acc = .error err → ∃ acc' tok, emit acc' tok q = .error err
  | [], acc, h => by cases h
  | tok :: toks, acc, h => by
    unfold emitAll at h
    rcases bind_error h with h | ⟨acc', -, h⟩
    · exact ⟨acc, tok, h⟩
    · exact emitAll_error toks h

theorem range_error {offsets : List Nat} {n : Nat} {err : CompileError} (h : VocabTrie.range offsets n = .error err) :
    err = badNode := by
  unfold VocabTrie.range at h
  split at h
  · cases h
  · cases h
    rfl

theorem badNode_ne_stackFull : badNode ≠ stackFull := by decide

/-- **Where a full stack is from**: from what is done with a token, or from a pop that overfills the stack. -/
theorem Fails.full {w : WalkState σ} (h : Fails t e stackFuel emit w stackFull) :
    (∃ acc tok q, emit acc tok q = .error stackFull) ∨
      ∃ p, Pruned t.childNodes (w.stack.map Prod.fst) p ∧ stackFuel < p.length := by
  cases h with
  | leaves h =>
    rcases bind_error h with h | ⟨_, -, h⟩
    · exact absurd (range_error h).symm badNode_ne_stackFull
    · cases h
  | emit h =>
    obtain ⟨acc, tok, h⟩ := emitAll_error _ h
    exact Or.inl ⟨acc, tok, _, h⟩
  | children h =>
    rcases bind_error h with h | ⟨_, -, h⟩
    · exact absurd (range_error h).symm badNode_ne_stackFull
    · cases h
  | push hkc h =>
    obtain ⟨-, added, hsub, hlt⟩ := pushLive_error _ h
    rw [← childNodes_of_children hkc] at hsub
    refine Or.inr ⟨_, .pop _ _ hsub, ?_⟩
    rw [List.length_append, List.length_map]
    exact hlt

/-- **The walk's stack is part of a stack of the full walk**, and no higher than the frontier. -/
theorem VocabTrie.Shaped.walks (h : t.Shaped) {memo : StepMemo} {s : Nat} {acc : σ} {w : WalkState σ}
    (hw : Walks t e stackFuel emit memo s acc w) :
    (∃ full, ReflTransGen (Full t.childNodes) [0] full ∧ (w.stack.map Prod.fst).Sublist full) ∧
      w.stack.length ≤ t.maxDfsFrontier := by
  obtain ⟨key, records, lbl, ht⟩ := h.spells
  refine ⟨StackHeight.pruned_sublist ht.wellFounded hw.pruned, ?_⟩
  have := StackHeight.pruned_le ht.wellFounded h.isGreatest.2 hw.pruned
  rwa [List.length_map] at this

/-- **With the frontier as fuel no push is refused**: a walk that ends with that error has it from `emit`. -/
theorem VocabTrie.Shaped.never_full (h : t.Shaped) {memo : StepMemo} {s f : Nat} {acc : σ}
    (hrun : walkLoop t e t.maxDfsFrontier emit f memo [(0, s)] acc = .error stackFull) :
    ∃ acc' tok q, emit acc' tok q = .error stackFull := by
  obtain ⟨key, records, lbl, ht⟩ := h.spells
  obtain ⟨w, hw, hfail⟩ := walkLoop_error f ⟨memo, [(0, s)], acc⟩ hrun
  rcases hfail.full with hemit | ⟨p, hp, hlt⟩
  · exact hemit
  · have hw : Walks t e t.maxDfsFrontier emit memo s acc w := hw
    have := StackHeight.pruned_le ht.wellFounded h.isGreatest.2 (hw.pruned.tail hp)
    omega

/-- **A walk that returns has emptied its stack**: the bound on the pops never cuts it short. -/
theorem walkLoop_walks {key : Byte → Nat} {records : List TokenRecord} {lbl : Nat → List Nat}
    (ht : t.Spells key records lbl) {memo' : StepMemo} {acc' : σ} : ∀ (f : Nat) (w : WalkState σ),
    (∀ nq ∈ w.stack, nq.1 < t.nodeCount) →
    Worklist.weight t.nodeCount t.edgeKey.length (w.stack.map Prod.fst) ≤ f →
    walkLoop t e stackFuel emit f w.memo w.stack w.acc = .ok (memo', acc') →
      ReflTransGen (Turn t e stackFuel emit) w ⟨memo', [], acc'⟩
  | 0, ⟨memo, [], acc⟩, _, _, h => by
    cases h
    exact .refl
  | 0, ⟨memo, (n, q) :: rest, acc⟩, _, hw, _ => by
    have : 0 < (t.edgeKey.length + 1) ^ (t.nodeCount - n) := Nat.pow_pos (by omega)
    simp only [List.map_cons, Worklist.weight_cons] at hw
    omega
  | f + 1, ⟨memo, [], acc⟩, _, _, h => by
    cases h
    exact .refl
  | f + 1, ⟨memo, (n, q) :: rest, acc⟩, hs, hw, h => by
    have hn : n < t.nodeCount := hs (n, q) List.mem_cons_self
    have hrest : ∀ nq ∈ rest, nq.1 < t.nodeCount := fun nq hnq => hs nq (List.mem_cons_of_mem _ hnq)
    simp only [List.map_cons] at hw
    unfold walkLoop at h
    split at h
    · rename_i hq
      subst hq
      have hdrop := Worklist.weight_pop [] (rest.map Prod.fst) hn (Nat.zero_le t.edgeKey.length) (by simp)
      rw [List.nil_append] at hdrop
      exact .head .skip (walkLoop_walks ht f ⟨memo, rest, acc⟩ hrest
        (Nat.le_of_lt_succ (Nat.lt_of_lt_of_le hdrop hw)) h)
    · rename_i hq
      obtain ⟨toks, hleaves, h⟩ := bind_ok h
      obtain ⟨acc₁, hemit, h⟩ := bind_ok h
      obtain ⟨kc, hkc, h⟩ := bind_ok h
      obtain ⟨⟨memo₁, stack₁⟩, hpush, h⟩ := bind_ok h
      obtain ⟨added, rfl, hsub⟩ := pushLive_sublist _ hpush
      rw [← childNodes_of_children hkc] at hsub
      have hchild : ∀ c ∈ added.map Prod.fst, n < c ∧ c < t.nodeCount := fun c hc =>
        ht.above (List.mem_reverse.1 (hsub.subset hc))
      have hfew : (added.map Prod.fst).length ≤ t.edgeKey.length := by
        refine Nat.le_trans hsub.length_le ?_
        rw [List.length_reverse]
        exact ht.ascending.few n hn
      have hdrop := Worklist.weight_pop (added.map Prod.fst) (rest.map Prod.fst) hn hfew hchild
      rw [← List.map_append] at hdrop
      have hs₁ : ∀ nq ∈ added ++ rest, nq.1 < t.nodeCount := by
        intro nq hnq
        rcases List.mem_append.1 hnq with hnq | hnq
        · exact (hchild nq.1 (List.mem_map.2 ⟨nq, hnq, rfl⟩)).2
        · exact hrest nq hnq
      exact .head (.expand hq hleaves hemit hkc hpush)
        (walkLoop_walks ht f ⟨memo₁, added ++ rest, acc₁⟩ hs₁ (Nat.le_of_lt_succ (Nat.lt_of_lt_of_le hdrop hw)) h)

/-! ### Where nothing is pruned -/

/-- The engine survives every string of keys the trie has below `n`. -/
def Unpruned (t : VocabTrie) (e : RefEngine) (n q : Nat) : Prop :=
  q ≠ dead ∧ ∀ ks j, Path t.kids n ks j → (stepKeys t e q ks).isSome

theorem Unpruned.child {n q : Nat} (h : Unpruned t e n q) {kc : Nat × Nat} (hkc : kc ∈ t.kids n) :
    Unpruned t e kc.2 (e.step q (t.classOfEdge kc.1 e)) := by
  have hlive : e.step q (t.classOfEdge kc.1 e) ≠ dead := by
    intro hdead
    have := h.2 [kc.1] kc.2 (.cons hkc (.nil _))
    simp [stepKeys, hdead] at this
  refine ⟨hlive, fun ks j hp => ?_⟩
  have := h.2 (kc.1 :: ks) j (.cons hkc hp)
  rw [stepKeys, if_neg hlive] at this
  exact this

/-- The children of a node that all survive are all pushed, if the fuel admits it. -/
theorem pushLive_all {q : Nat} : ∀ (kids : List (Nat × Nat)) {memo : StepMemo} {stack : List (Nat × Nat)},
    memo.For e q → (∀ kc ∈ kids, e.step q (t.classOfEdge kc.1 e) ≠ dead) → stack.length ≤ stackFuel →
      pushLive t e stackFuel q kids memo stack = .error stackFull ∨
      ∃ memo', memo'.Bounded ∧ kids.length + stack.length ≤ stackFuel ∧
        pushLive t e stackFuel q kids memo stack =
          .ok (memo', (kids.map (fun kc => (kc.2, e.step q (t.classOfEdge kc.1 e)))).reverse ++ stack)
  | [], memo, stack, hm, _, hlen => Or.inr ⟨memo, hm.toBounded, by simpa using hlen, rfl⟩
  | (key, child) :: kids, memo, stack, hm, hlive, hlen => by
    have hne := hlive (key, child) List.mem_cons_self
    have hbit := (e.live_iff q (t.classOfEdge key e)).2 hne
    obtain ⟨hval, hfor⟩ := hm.getOr (BitVec.lt_of_getLsbD hbit)
    unfold pushLive
    simp only [hbit, if_true, hval, if_pos hne]
    split
    · exact Or.inl rfl
    · rename_i hroom
      have hroom : ((child, e.step q (t.classOfEdge key e)) :: stack).length ≤ stackFuel := by
        rw [List.length_cons]
        omega
      rcases pushLive_all kids hfor (fun kc hkc => hlive kc (List.mem_cons_of_mem _ hkc)) hroom with herr | hok
      · exact Or.inl herr
      · obtain ⟨memo', hb, hfit, hpush⟩ := hok
        refine Or.inr ⟨memo', hb, ?_, ?_⟩
        · simp only [List.length_cons] at hfit ⊢
          omega
        · rw [hpush, List.map_cons, List.reverse_cons, List.append_assoc]
          rfl

theorem emitAll_total (hemit : ∀ acc tok q, ∃ acc', emit acc tok q = .ok acc') (q : Nat) :
    ∀ (toks : List Nat) (acc : σ),
    ∃ acc', emitAll emit q toks acc = .ok acc'
  | [], acc => ⟨acc, rfl⟩
  | tok :: toks, acc => by
    obtain ⟨acc₁, h₁⟩ := hemit acc tok q
    obtain ⟨acc₂, h₂⟩ := emitAll_total hemit q toks acc₁
    refine ⟨acc₂, ?_⟩
    unfold emitAll
    rw [h₁]
    exact h₂

/-- **Where nothing is pruned the joint walk is the full walk**: fuel below a height still to come is too little. -/
theorem walkLoop_trips {key : Byte → Nat} {records : List TokenRecord} {lbl : Nat → List Nat}
    (ht : t.Spells key records lbl) (hemit : ∀ acc tok q, ∃ acc', emit acc tok q = .ok acc') {k : Nat}
    (hk : stackFuel < k) : ∀ (f : Nat) {memo : StepMemo} {stack : List (Nat × Nat)} {acc : σ}, memo.Bounded →
    (∀ nq ∈ stack, nq.1 < t.nodeCount ∧ Unpruned t e nq.1 nq.2) →
    Worklist.weight t.nodeCount t.edgeKey.length (stack.map Prod.fst) ≤ f → stack.length ≤ stackFuel →
    k ∈ heights t.childNodes (stack.map Prod.fst) →
      walkLoop t e stackFuel emit f memo stack acc = .error stackFull
  | _, memo, [], acc, _, _, _, _, hin => by
    rw [List.map_nil, StackHeight.heights_nil, Set.mem_singleton_iff] at hin
    omega
  | 0, memo, (n, q) :: rest, acc, _, _, hw, _, _ => by
    have : 0 < (t.edgeKey.length + 1) ^ (t.nodeCount - n) := Nat.pow_pos (by omega)
    simp only [List.map_cons, Worklist.weight_cons] at hw
    omega
  | f + 1, memo, (n, q) :: rest, acc, hm, hs, hw, hlen, hin => by
    obtain ⟨hn, hlive⟩ := hs (n, q) List.mem_cons_self
    simp only at hn hlive
    obtain ⟨⟨kc, hkc⟩, toks, htoks⟩ := ht.readable n hn
    obtain ⟨acc₁, hacc⟩ := emitAll_total hemit q toks acc
    have hkids : t.kids n = kc.1.zip kc.2 := by
      unfold VocabTrie.kids
      rw [hkc]
    unfold walkLoop
    rw [if_neg hlive.1, htoks]
    show (emitAll emit q toks acc >>= _) = _
    rw [hacc]
    show (t.children n >>= _) = _
    rw [hkc]
    show (pushLive t e stackFuel q (kc.1.zip kc.2) memo.bump rest >>= _) = _
    rw [← hkids]
    rw [List.length_cons] at hlen
    rcases pushLive_all (t.kids n) (hm.bump e q) (fun kc hkc => (hlive.child hkc).1) (Nat.le_of_succ_le hlen) with
      herr | ⟨memo₁, hb, hfit, hpush⟩
    · rw [herr]
      rfl
    rw [hpush]
    -- the stack is the full walk's after the same pop
    have hnodes : ((t.kids n).map (fun kc => (kc.2, e.step q (t.classOfEdge kc.1 e)))).reverse.map Prod.fst =
        (t.childNodes n).reverse := by
      rw [List.map_reverse, List.map_map]
      rfl
    have hfew : (t.childNodes n).reverse.length ≤ t.edgeKey.length := by
      rw [List.length_reverse]
      exact ht.ascending.few n hn
    have hdrop := Worklist.weight_pop (t.childNodes n).reverse (rest.map Prod.fst) hn hfew
      (fun c hc => ht.above (List.mem_reverse.1 hc))
    rw [List.map_cons] at hw hin
    rw [StackHeight.heights_cons, List.length_map] at hin
    refine walkLoop_trips ht hemit hk f hb ?_ ?_ ?_ ?_
    · intro nq hnq
      rcases List.mem_append.1 hnq with hnq | hnq
      · obtain ⟨kc, hkc, rfl⟩ := List.mem_map.1 (List.mem_reverse.1 hnq)
        exact ⟨(ht.labelled.edge n hn kc hkc).2.2, hlive.child hkc⟩
      · exact hs nq (List.mem_cons_of_mem _ hnq)
    · rw [List.map_append, hnodes]
      exact Nat.le_of_lt_succ (Nat.lt_of_lt_of_le hdrop hw)
    · simpa using hfit
    · rw [List.map_append, hnodes]
      rcases hin with hin | hin
      · omega
      · exact hin

end Bound

/-! ## The consumers -/

section Consumers

variable {t : VocabTrie} {e : RefEngine}

theorem walkStateMaskInto_full (h : t.Shaped) {permit : Permit} {s : Nat} {mask : Bitmask}
    (hrun : walkStateMaskInto t e permit s mask = .error stackFull) : permit = .error stackFull := by
  unfold walkStateMaskInto at hrun
  split at hrun
  · exact absurd (Except.error.inj hrun) (by decide)
  rcases bind_error hrun with hpermit | ⟨_, -, hrun⟩
  · exact hpermit
  rcases bind_error hrun with hwalk | ⟨_, -, hrun⟩
  · obtain ⟨m, tok, q, hset⟩ := h.never_full hwalk
    unfold Bitmask.set at hset
    split at hset
    · exact absurd (Except.error.inj hset) (by decide)
    · cases hset
  · cases hrun

theorem packedRows_not_full (h : t.Shaped) {wpr vocabSize : Nat} : ∀ (ss : List Nat) (memo : StepMemo),
    packedRows t e wpr vocabSize t.maxDfsFrontier ss memo ≠ .error stackFull
  | [], memo => by
    intro hrun
    cases hrun
  | s :: ss, memo => by
    intro hrun
    unfold packedRows at hrun
    rcases bind_error hrun with hwalk | ⟨r, -, hrun⟩
    · obtain ⟨row, tok, q, hset⟩ := h.never_full hwalk
      unfold setPacked at hset
      split at hset
      · exact absurd (Except.error.inj hset) (by decide)
      · cases hset
    · rcases bind_error hrun with hrest | ⟨_, -, hrun⟩
      · exact packedRows_not_full h ss r.1 hrest
      · cases hrun

theorem fillPackedRows_not_full (h : t.Shaped) {wpr vocabSize : Nat} :
    fillPackedRows t e wpr vocabSize t.maxDfsFrontier ≠ .error stackFull := by
  intro hrun
  unfold fillPackedRows at hrun
  split at hrun
  · exact absurd (Except.error.inj hrun) (by decide)
  rcases bind_error hrun with hrows | ⟨_, -, hrun⟩
  · exact packedRows_not_full h _ _ hrows
  · cases hrun

end Consumers

/-- **The joint walk never runs out of the stack it is given.**  The frontier of a built trie is the height of its full
walk; every stack of a joint walk, under any engine, from any state and whatever is done with a token, is part of one of
the full walk's; so with the frontier as fuel no push is refused, in the lazy walk and in the packed fill too.  A walk
that returns has emptied its stack, and where the engine prunes nothing any smaller fuel is too little. -/
theorem walk_within_frontier {t : VocabTrie} (ht : t.Built) :
    IsGreatest (heights t.childNodes [0]) t.maxDfsFrontier ∧
    (∀ {σ : Type} (e : RefEngine) (emit : σ → Nat → Nat → Except CompileError σ) (memo : StepMemo) (s : Nat) (acc : σ),
      (∀ stackFuel w, Walks t e stackFuel emit memo s acc w →
        (∃ full, ReflTransGen (Full t.childNodes) [0] full ∧ (w.stack.map Prod.fst).Sublist full) ∧
          w.stack.length ≤ t.maxDfsFrontier) ∧
      (∀ stackFuel memo' acc', walkLiveSubtree t e stackFuel emit memo s acc = .ok (memo', acc') →
        Walks t e stackFuel emit memo s acc ⟨memo', [], acc'⟩) ∧
      (walkLiveSubtree t e t.maxDfsFrontier emit memo s acc = .error stackFull →
        ∃ acc' tok q, emit acc' tok q = .error stackFull) ∧
      (memo.Bounded → Unpruned t e 0 s → (∀ acc' tok q, ∃ acc'', emit acc' tok q = .ok acc'') →
        ∀ stackFuel, 0 < stackFuel → stackFuel < t.maxDfsFrontier →
          walkLiveSubtree t e stackFuel emit memo s acc = .error stackFull)) ∧
    (∀ (e : RefEngine) (permit : Permit) (s : Nat) (mask : Bitmask),
      walkStateMaskInto t e permit s mask = .error stackFull → permit = .error stackFull) ∧
    ∀ (e : RefEngine) (wpr vocabSize : Nat), fillPackedRows t e wpr vocabSize t.maxDfsFrontier ≠ .error stackFull := by
  have h := ht.shaped
  obtain ⟨key, records, lbl, hspells⟩ := h.spells
  have hpos : 0 < t.nodeCount := hspells.labelled.inhabited
  have hweight : ∀ s : Nat, Worklist.weight t.nodeCount t.edgeKey.length ([(0, s)].map Prod.fst) ≤
      Worklist.fuel t.nodeCount t.edgeKey.length := by
    intro s
    rw [← Worklist.weight_root]
    exact Nat.le_refl _
  refine ⟨h.isGreatest, fun e emit memo s acc => ⟨fun _ _ hw => h.walks hw, ?_, h.never_full, ?_⟩,
    fun _ _ _ _ => walkStateMaskInto_full h, fun _ _ _ => fillPackedRows_not_full h⟩
  · intro stackFuel memo' acc' hrun
    exact walkLoop_walks hspells _ ⟨memo, [(0, s)], acc⟩ (by simpa using hpos) (hweight s) hrun
  · intro hm hlive hemit stackFuel hone hlt
    exact walkLoop_trips hspells hemit hlt _ hm (by simpa using ⟨hpos, hlive⟩) (hweight s) hone h.isGreatest.1

/-- The engine of every text: one class of bytes, and one live state that each of them leads back to. -/
def anyTextData : EngineData where
  rowOffsets := [0, 0, 1]
  edges := [(0, 1)]
  accepting := [false, true]
  residualCardinality := [0, 1]
  liveClasses := [0, 1]
  classTable := ⟨[(List.range 256).map UInt8.ofNat], fun _ => 0⟩
  classCount := 1
  stateCount := 2
  start := 1

theorem anyTextData_wf : anyTextData.Wf where
  rows := rfl
  sorted := by decide
  targets := by decide
  deadRow := rfl
  acceptingLen := rfl
  deadRejects := rfl
  liveLen := rfl
  live := by
    intro s m hm c
    rcases s with _ | _ | s
    · cases hm
      simp [anyTextData, EngineData.row, slice]
    · cases hm
      rw [getLsbD_first]
      simp [anyTextData, EngineData.row, slice]
    · cases hm
  classes := rfl
  classOf := fun _ => Nat.one_pos
  members := by
    intro c bs hbs b
    cases c with
    | zero =>
      cases hbs
      exact iff_of_true (mem_every b) rfl
    | succ n => cases hbs
  classCap := by decide
  startLt := by decide

def anyText : RefEngine := ⟨anyTextData, anyTextData_wf⟩

theorem anyText_stepKeys {t : VocabTrie} (h : t.kind = .byte) : ∀ (ks : List Nat), stepKeys t anyText 1 ks = some 1
  | [] => rfl
  | k :: ks => by
    have hstep : anyText.step 1 (t.classOfEdge k anyText) = 1 := by
      unfold VocabTrie.classOfEdge
      rw [h]
      rfl
    rw [stepKeys, hstep, if_neg (by decide)]
    exact anyText_stepKeys h ks

/-- Two tokens that part at their last byte: two places are enough for the stack, and one is not. -/
theorem walk_within_frontier_fork : ∃ t,
    buildByteLimited {} 7 [([0x63, 0x61, 0x72], [0]), ([0x63, 0x61, 0x74], [1])] = .ok t ∧ t.maxDfsFrontier = 2 ∧
    IsGreatest (heights t.childNodes [0]) 2 ∧
    walkLiveSubtree t anyText 2 (fun n _ _ => .ok (n + 1)) StepMemo.new 1 0 ≠ .error stackFull ∧
    walkLiveSubtree t anyText 1 (fun n _ _ => .ok (n + 1)) StepMemo.new 1 0 = .error stackFull ∧
    fillPackedRows t anyText 1 2 2 ≠ .error stackFull := by
  have hfrontier : ((buildByteLimited {} 7 [([0x63, 0x61, 0x72], [0]), ([0x63, 0x61, 0x74], [1])]).toOption.map
      (fun t => (t.maxDfsFrontier, t.kind))) = some (2, .byte) := by decide +kernel
  cases ht : buildByteLimited {} 7 [([0x63, 0x61, 0x72], [0]), ([0x63, 0x61, 0x74], [1])] with
  | error err =>
    rw [ht] at hfrontier
    cases hfrontier
  | ok t =>
    rw [ht] at hfrontier
    obtain ⟨hpeak, hkind⟩ := Prod.mk.inj (Option.some.inj hfrontier)
    obtain ⟨hexact, hwalk, -, hpacked⟩ := walk_within_frontier (.byte _ _ _ ht)
    obtain ⟨-, -, hfull, htrips⟩ := hwalk anyText (fun (n : Nat) _ _ => .ok (n + 1)) StepMemo.new 1 0
    rw [hpeak] at hexact hfull htrips hpacked
    refine ⟨t, rfl, hpeak, hexact, ?_, ?_, hpacked anyText 1 2⟩
    · intro hrun
      obtain ⟨_, _, _, hemit⟩ := hfull hrun
      cases hemit
    · refine htrips StepMemo.bounded_new ⟨by decide, fun ks j _ => ?_⟩ (fun n _ _ => ⟨n + 1, rfl⟩) 1 Nat.one_pos
        (by decide)
      rw [anyText_stepKeys hkind]
      rfl

end MaskForge
