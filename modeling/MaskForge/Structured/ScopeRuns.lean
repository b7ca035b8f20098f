import MaskForge.Structured.ScopeChains
/-!
# ScopeRuns — dynamic references over whole runs

A session holds leases and does with them, in any order, what the engine does: enter, clone, release, resolve.  Beside
each lease stands the chain it was handed out for.  Whatever was freed and taken again since, the arena still has that
chain for it, every slot on it live, and resolves an anchor to the outermost binding on it.
-/
namespace MaskForge

namespace DynamicPlan

/-- The binding of the anchor by the outermost resource of a chain that has one. -/
def outermostTarget (d : DynamicPlan) (initialTarget anchor : Nat) (chain : List Nat) : Nat :=
  (chain.reverse.findSome? (d.dynamicTarget anchor)).getD initialTarget

/-- **The walk finds the outermost binding.** -/
theorem resolveChain_outermost (d : DynamicPlan) (anchor : Nat) : ∀ (chain : List Nat) (selected : Nat),
    d.resolveChain anchor selected chain = d.outermostTarget selected anchor chain
  | [], selected => rfl
  | r :: chain, selected => by
    unfold resolveChain
    rw [resolveChain_outermost d anchor chain]
    unfold outermostTarget
    rw [List.reverse_cons, List.findSome?_append]
    cases chain.reverse.findSome? (d.dynamicTarget anchor) with
    | none => cases hr : d.dynamicTarget anchor r <;> simp [hr]
    | some target => rfl

end DynamicPlan

namespace ScopeArena

/-- The resources of a scope, innermost first, if every slot on the way out is live. -/
def chainLoop (a : ScopeArena) : Nat → Option Nat → Option (List Nat)
  | _, none => some []
  | 0, some _ => none
  | rounds + 1, some id => a.slots[id]?.bind fun slot =>
    if slot.refs = 0 then none else (chainLoop a rounds slot.parent).map (slot.resource :: ·)

def liveChain (a : ScopeArena) (id : Nat) : Option (List Nat) := chainLoop a a.slots.length (some id)

variable {p : ReferencePlan} {a a' : ScopeArena} {held : List Nat} {id : Nat} {chain : List Nat} {slot : ScopeSlot}

theorem HasChain.exists_slot (h : a.HasChain id chain) : ∃ slot, a.slots[id]? = some slot := by
  obtain ⟨_, hall, hc⟩ := h
  obtain ⟨ids, rfl, -⟩ := hall.of_some
  cases chain with
  | nil => cases hc
  | cons r chain =>
    obtain ⟨slot, hs, -⟩ := Option.map_eq_some_iff.1 (List.cons.inj hc).1
    exact ⟨slot, hs⟩

/-- Only the slots say what a chain is. -/
theorem hasChain_congr (hs : a'.slots = a.slots) : a'.HasChain id chain ↔ a.HasChain id chain := by
  unfold HasChain
  rw [show a'.parentOf = a.parentOf from funext fun i => by unfold parentOf; rw [hs],
    show a'.resourceOf = a.resourceOf from funext fun i => by unfold resourceOf; rw [hs]]

theorem chainLoop_eq : ∀ (rounds : Nat) (head : Option Nat) (ids chain : List Nat), Linked a.parentOf head ids →
    (∀ i ∈ ids, a.Live i) → ids.map a.resourceOf = chain.map some → ids.length ≤ rounds →
    a.chainLoop rounds head = some chain
  | rounds, none, ids, chain, hl, hlive, hc, hlen => by
    rw [hl.of_none] at hc
    rw [List.map_eq_nil_iff.1 hc.symm]
    unfold chainLoop
    rfl
  | 0, some id, ids, chain, hl, hlive, hc, hlen => by
    obtain ⟨ids, rfl, -⟩ := hl.of_some
    simp at hlen
  | rounds + 1, some id, _, chain, hall, hlive, hc, hlen => by
    obtain ⟨ids, rfl, hl⟩ := hall.of_some
    obtain ⟨slot, hs, hr⟩ := hlive id List.mem_cons_self
    cases chain with
    | nil => cases hc
    | cons r chain =>
      obtain ⟨hr', hc⟩ := List.cons.inj hc
      rw [resourceOf_eq hs] at hr'
      rw [parentOf_eq hs] at hl
      have ih := chainLoop_eq rounds slot.parent ids chain hl (fun i hi => hlive i (List.mem_cons_of_mem _ hi)) hc
        (Nat.le_of_succ_le_succ hlen)
      unfold chainLoop
      rw [hs]
      show (if slot.refs = 0 then none else (a.chainLoop rounds slot.parent).map (slot.resource :: ·)) = _
      rw [if_neg hr, ih]
      simpa using hr'

/-- **A lease's scope and all it was entered from are live.** -/
theorem Inv.liveChain (h : Inv p a held) (hid : id ∈ held) (hc : a.HasChain id chain) :
    a.liveChain id = some chain := by
  obtain ⟨ids, hl, hres⟩ := hc
  have hlive := h.live_chain (h.live hid) hl
  refine chainLoop_eq _ _ ids chain hl hlive hres (hl.length_le fun i hi => ?_)
  obtain ⟨slot, hs, -⟩ := hlive i hi
  exact lt_of_slot hs

/-! ## Resolving an anchor -/

/-- A scope is as deep as the plan allows, or outermost. -/
theorem Inv.chain_length (h : Inv p a held) (hid : id ∈ held) (hc : a.HasChain id chain) :
    chain.length ≤ max p.maxDynamicScopeDepth 1 := by
  obtain ⟨slot, hs, hr⟩ := h.live hid
  obtain ⟨chain', hc', hlen⟩ := h.exists_chain hs hr
  rw [hc.unique hc', hlen]
  cases hp : slot.parent with
  | none =>
    rw [h.outermost id slot hs hr hp]
    exact Nat.le_max_right _ _
  | some parent =>
    obtain ⟨-, -, -, hmax⟩ := h.entered id slot parent hs hr hp
    exact Nat.le_trans hmax (Nat.le_max_left _ _)

theorem walkLoop_eq (anchor : Nat) : ∀ (remaining : Nat) (chain : List Nat) (id selected : Nat), a.HasChain id chain →
    chain.length ≤ remaining →
    p.walkLoop a anchor remaining selected (some id) = .ok (p.dynamic.resolveChain anchor selected chain)
  | 0, chain, id, selected, hc, hlen => by
    obtain ⟨slot, hs⟩ := hc.exists_slot
    obtain ⟨rest, rfl, -⟩ := hc.cons_inv hs
    simp at hlen
  | remaining + 1, chain, id, selected, hc, hlen => by
    obtain ⟨slot, hs⟩ := hc.exists_slot
    obtain ⟨rest, rfl, hrest⟩ := hc.cons_inv hs
    unfold ReferencePlan.walkLoop DynamicPlan.resolveChain
    rw [slot_ok hs]
    show p.walkLoop a anchor remaining _ slot.parent = _
    cases hp : slot.parent with
    | none =>
      rw [hp] at hrest
      rw [hrest]
      unfold ReferencePlan.walkLoop DynamicPlan.resolveChain
      rfl
    | some parent =>
      rw [hp] at hrest
      exact walkLoop_eq anchor remaining rest parent _ hrest (Nat.le_of_succ_le_succ hlen)

/-- **The memo answers for the scope that asks**: a former occupant of its slot had a lower generation. -/
theorem Inv.memo_hit (h : Inv p a held) (hid : id ∈ held) (hc : a.HasChain id chain)
    {generation anchor initialTarget target : Nat} (hg : a.generations[id]? = some generation)
    (hhit : a.dynamicMemoGet ⟨id, generation, anchor, initialTarget⟩ = some target) :
    target = p.dynamic.resolveChain anchor initialTarget chain := by
  unfold dynamicMemoGet at hhit
  split at hhit
  · cases hhit
  · rename_i m hm
    split at hhit
    · rename_i hmatch
      obtain ⟨-, hindex, hgen, hinitial⟩ := hmatch
      cases hhit
      obtain ⟨g, hg', -, hvalid⟩ := h.memo anchor m id hm hindex
      rw [hg] at hg'
      cases hg'
      rw [hvalid hgen (h.live hid) chain hc, hinitial]
    · cases hhit

theorem dynamicMemoStore_slots (a : ScopeArena) (key : DynamicResolutionKey) (target : Nat) :
    (a.dynamicMemoStore key target).slots = a.slots := by
  unfold dynamicMemoStore
  split
  · rfl
  · split <;> rfl

theorem Inv.store (h : Inv p a held) (hc : a.HasChain id chain) {generation : Nat}
    (hg : a.generations[id]? = some generation)
    (anchor initialTarget : Nat) :
    Inv p (a.dynamicMemoStore ⟨id, generation, anchor, initialTarget⟩
      (p.dynamic.resolveChain anchor initialTarget chain))
      held := by
  unfold dynamicMemoStore
  split
  · exact h
  split
  · exact h
  refine ⟨h.generations, h.free, h.counted, h.within, h.outermost, h.entered, ?_⟩
  intro anchor' m i hm hi
  change (a.dynamicMemo.set anchor _)[anchor']? = some m at hm
  rw [List.getElem?_set] at hm
  split at hm
  · rename_i heq
    subst heq
    split at hm
    · cases hm
      cases hi
      exact ⟨generation, hg, Nat.le_refl _, fun _ _ chain' hc' => by rw [hc.unique hc']⟩
    · cases hm
  · exact h.memo anchor' m i hm hi

/-- **An anchor resolves to its outermost binding**, unless the plan allows no scope at all. -/
theorem Inv.resolveDynamicTarget (h : Inv p a held) (hid : id ∈ held) (hc : a.HasChain id chain)
    (initialTarget anchor : Nat) :
    Inv p (p.resolveDynamicTarget initialTarget anchor id a).2 held ∧
      (p.resolveDynamicTarget initialTarget anchor id a).2.slots = a.slots ∧
      ((p.resolveDynamicTarget initialTarget anchor id a).1 = .ok (p.dynamic.resolveChain anchor initialTarget chain) ∨
        p.maxDynamicScopeDepth = 0 ∧
          (p.resolveDynamicTarget initialTarget anchor id a).1 = .error ⟨.dynamicScopeDepth, 1, 0⟩) := by
  have hlt : id < a.generations.length := by
    rw [h.generations]
    exact h.within id hid
  have hg := List.getElem?_eq_getElem hlt
  unfold ReferencePlan.resolveDynamicTarget ScopeArena.generation
  simp only [hg]
  cases hhit : a.dynamicMemoGet ⟨id, a.generations[id], anchor, initialTarget⟩ with
  | some target =>
    rw [h.memo_hit hid hc hg hhit]
    exact ⟨h, rfl, .inl rfl⟩
  | none =>
    by_cases hmax : p.maxDynamicScopeDepth = 0
    · obtain ⟨slot, hs⟩ := hc.exists_slot
      have hwalk : p.walkLoop a anchor p.maxDynamicScopeDepth initialTarget (some id) =
        .error ⟨.dynamicScopeDepth, 1, 0⟩ := by
        rw [hmax]
        unfold ReferencePlan.walkLoop
        rw [slot_ok hs, hmax]
        rfl
      simp only [hwalk]
      exact ⟨h, trivial, .inr ⟨hmax, trivial⟩⟩
    · have hlen := h.chain_length hid hc
      rw [Nat.max_eq_left (by omega)] at hlen
      simp only [walkLoop_eq anchor p.maxDynamicScopeDepth chain id initialTarget hc hlen]
      exact ⟨h.store hc hg anchor initialTarget, dynamicMemoStore_slots _ _ _, .inl trivial⟩

end ScopeArena

/-! ## Resolving a node -/

namespace NodePlan

def isReference : NodePlan → Bool
  | ref _ | dynamicRef _ _ => true
  | _ => false

end NodePlan

namespace ReferencePlan

/-- Where a reference leads from a chain. -/
def chainTarget (p : ReferencePlan) (chain : List Nat) : NodePlan → Option Nat
  | .ref target => some target
  | .dynamicRef initialTarget anchor => some (p.dynamic.outermostTarget initialTarget anchor chain)
  | _ => none

/-- Following references on chains, with the hops that are left: the node that is none, and the chain it
is reached by. -/
def followLoop (p : ReferencePlan) (remaining node : Nat) (chain : List Nat) : Option (Nat × List Nat) :=
  match p.nodes[node]?, p.nodeResource node with
  | some entry, some resource =>
    let entered := if p.dynamic.enabled then DynamicPlan.enterChain chain resource else chain
    match p.chainTarget entered entry with
    | none => some (node, entered)
    | some target => match remaining with
      | 0 => none
      | remaining + 1 => followLoop p remaining target entered
  | _, _ => none

def follow (p : ReferencePlan) (start : Nat) (chain : List Nat) : Option (Nat × List Nat) :=
  p.followLoop p.nodes.length start chain

end ReferencePlan

namespace ScopeArena

variable {p : ReferencePlan} {a a' : ScopeArena} {held : List Nat} {id : Nat} {chain : List Nat}

theorem isReference_of_referenceTarget {scope : Nat} {entry : NodePlan}
    (h : (p.referenceTarget scope entry a).1 = .ok none) :
    entry.isReference = false := by
  cases entry with
  | ref target => cases h
  | dynamicRef initialTarget anchor =>
    have heq : (p.referenceTarget scope (.dynamicRef initialTarget anchor) a).1 =
        (p.resolveDynamicTarget initialTarget anchor scope a).1.map some := by
      simp only [ReferencePlan.referenceTarget]
      generalize p.resolveDynamicTarget initialTarget anchor scope a = result
      obtain ⟨_ | target, a'⟩ := result <;> rfl
    rw [heq] at h
    cases hr : (p.resolveDynamicTarget initialTarget anchor scope a).1 with
    | error e =>
      rw [hr] at h
      cases h
    | ok target =>
      rw [hr] at h
      cases h
  | _ => rfl

/-- **A resolved node is no reference**, whatever the arena. -/
theorem resolveNodeLoop_node (remaining node scope : Nat) (a : ScopeArena) (r : Nat × Nat)
    (h : (p.resolveNodeLoop remaining node scope a).1 = .ok r) :
    ∃ entry, p.nodes[r.1]? = some entry ∧ entry.isReference = false := by
  induction remaining using Nat.strongRecOn generalizing node scope a with
  | ind remaining ih =>
    unfold ReferencePlan.resolveNodeLoop at h
    split at h
    · rename_i entry resource hentry hresource
      split at h
      · cases h
      · split at h
        · cases h
        · rename_i lease a₁ henter a₂ htarget
          cases h
          exact ⟨entry, hentry, isReference_of_referenceTarget (by rw [htarget])⟩
        · cases remaining with
          | zero => cases h
          | succ remaining => exact ih remaining (Nat.lt_succ_self _) _ _ _ h
    · cases h

/-- What entering a node's resource leaves of the lease it is given. -/
def NodeEntered (p : ReferencePlan) (a : ScopeArena) (scope : Nat) (held chain : List Nat) (resource : Nat) :
    Except ScopeError Nat × ScopeArena → Prop
  | (.ok id, a') => Inv p a' (id :: held) ∧ Keeps held a a' ∧
      a'.HasChain id (if p.dynamic.enabled then DynamicPlan.enterChain chain resource else chain)
  | (.error _, a') => Inv p a' (scope :: held) ∧ Keeps held a a'

theorem Inv.enterNode {scope : Nat} (h : Inv p a (scope :: held)) (hc : a.HasChain scope chain) (resource : Nat) :
    NodeEntered p a scope held chain resource (p.enterNode resource scope a) := by
  unfold ReferencePlan.enterNode
  by_cases henabled : p.dynamic.enabled = true
  · have henter := h.enter List.mem_cons_self hc resource
    rw [if_pos henabled]
    revert henter
    generalize a.enter scope resource p.maxDynamicScopeDepth = result
    obtain ⟨_ | id, a'⟩ := result
    · rintro ⟨hinv, hkeeps⟩
      exact ⟨hinv, hkeeps.mono fun i hi => List.mem_cons_of_mem _ hi⟩
    · rintro ⟨hinv, hchain, hkeeps⟩
      obtain ⟨hrel, hsame⟩ := (hinv.perm (List.Perm.swap _ _ _)).release
      refine ⟨hrel, (hkeeps.mono fun i hi => List.mem_cons_of_mem _ hi).trans hsame.keeps, ?_⟩
      rw [if_pos henabled]
      exact hsame.hasChain.2 hchain
  · rw [if_neg henabled]
    refine ⟨h, fun _ _ _ hc => hc, ?_⟩
    rw [if_neg henabled]
    exact hc

/-- What a resolved reference leaves: the arena's scopes are as they were, and the target is where the chain leads. -/
theorem Inv.referenceTarget {scope : Nat} (h : Inv p a held) (hid : scope ∈ held) (hc : a.HasChain scope chain)
    (entry : NodePlan) :
    Inv p (p.referenceTarget scope entry a).2 held ∧ (p.referenceTarget scope entry a).2.slots = a.slots ∧
      ∀ target, (p.referenceTarget scope entry a).1 = .ok target → p.chainTarget chain entry = target := by
  cases entry with
  | dynamicRef initialTarget anchor =>
    obtain ⟨hinv, hslots, hresult⟩ := h.resolveDynamicTarget hid hc initialTarget anchor
    rw [show p.referenceTarget scope (.dynamicRef initialTarget anchor) a =
      match p.resolveDynamicTarget initialTarget anchor scope a with
      | (.ok target, a) => (.ok (some target), a)
      | (.error e, a) => (.error e, a) from rfl]
    revert hinv hslots hresult
    generalize p.resolveDynamicTarget initialTarget anchor scope a = result
    obtain ⟨_ | target, a'⟩ := result
    · exact fun hinv hslots _ => ⟨hinv, hslots, fun target ht => by cases ht⟩
    · rintro hinv hslots (hok | ⟨-, herr⟩)
      · refine ⟨hinv, hslots, fun target' ht => ?_⟩
        cases hok
        cases ht
        rw [DynamicPlan.resolveChain_outermost]
        rfl
      · cases herr
  | ref target =>
    refine ⟨h, rfl, fun target' ht => ?_⟩
    cases ht
    rfl
  | _ =>
    refine ⟨h, rfl, fun target' ht => ?_⟩
    cases ht
    rfl

/-- What resolving a node leaves of the lease it is given. -/
def NodeResolved (p : ReferencePlan) (a : ScopeArena) (held : List Nat) (followed : Option (Nat × List Nat)) :
    Except ScopeError (Nat × Nat) × ScopeArena → Prop
  | (.ok (node, id), a') => Inv p a' (id :: held) ∧ Keeps held a a' ∧
      ∃ chain, followed = some (node, chain) ∧ a'.HasChain id chain
  | (.error _, a') => Inv p a' held ∧ Keeps held a a'

theorem keeps_of_slots (hs : a'.slots = a.slots) : Keeps held a a' := fun _ _ _ hc => (hasChain_congr hs).2 hc

/-- **A resolved node is the one the references lead to**, its lease has the chain it is reached by, and no other lease
notices. -/
theorem Inv.resolveNodeLoop (remaining node scope : Nat) (a : ScopeArena) (chain : List Nat)
    (h : Inv p a (scope :: held)) (hc : a.HasChain scope chain) :
    NodeResolved p a held (p.followLoop remaining node chain) (p.resolveNodeLoop remaining node scope a) := by
  induction remaining using Nat.strongRecOn generalizing node scope a chain with
  | ind remaining ih =>
    unfold ReferencePlan.resolveNodeLoop ReferencePlan.followLoop
    cases hentry : p.nodes[node]? with
    | none => exact ⟨h.release.1, h.release.2.keeps⟩
    | some entry =>
      cases hresource : p.nodeResource node with
      | none => exact ⟨h.release.1, h.release.2.keeps⟩
      | some resource =>
        have henter := h.enterNode hc resource
        revert henter
        simp only
        generalize p.enterNode resource scope a = result
        obtain ⟨_ | lease, a₁⟩ := result
        · rintro ⟨hinv, hkeeps⟩
          exact ⟨hinv.release.1, hkeeps.trans hinv.release.2.keeps⟩
        rintro ⟨hinv, hkeeps, hchain⟩
        simp only
        generalize (if p.dynamic.enabled then DynamicPlan.enterChain chain resource else chain) = entered at hchain ⊢
        obtain ⟨hinv', hslots, htarget⟩ := hinv.referenceTarget List.mem_cons_self hchain entry
        have hkeeps' : Keeps (lease :: held) a₁ (p.referenceTarget lease entry a₁).2 := keeps_of_slots hslots
        have hchain' := hkeeps' lease List.mem_cons_self _ hchain
        have hrest := hkeeps.trans (hkeeps'.mono fun i hi => List.mem_cons_of_mem _ hi)
        revert hinv' htarget hchain' hrest
        generalize p.referenceTarget lease entry a₁ = result
        obtain ⟨_ | target, a₂⟩ := result
        · intro hinv' htarget hchain' hrest
          exact ⟨hinv'.release.1, hrest.trans hinv'.release.2.keeps⟩
        intro hinv' htarget hchain' hrest
        rw [htarget target rfl]
        cases target with
        | none => exact ⟨hinv', hrest, entered, rfl, hchain'⟩
        | some target =>
          cases remaining with
          | zero => exact ⟨hinv'.release.1, hrest.trans hinv'.release.2.keeps⟩
          | succ remaining =>
            have hnext := ih remaining (Nat.lt_succ_self _) target lease a₂ entered hinv' hchain'
            revert hnext
            simp only
            generalize p.resolveNodeLoop remaining target lease a₂ = result
            obtain ⟨_ | ⟨node', id⟩, a₃⟩ := result
            · rintro ⟨hinv₃, hkeeps₃⟩
              exact ⟨hinv₃, hrest.trans hkeeps₃⟩
            · rintro ⟨hinv₃, hkeeps₃, hfollowed⟩
              exact ⟨hinv₃, hrest.trans hkeeps₃, hfollowed⟩

/-! ## A new arena -/

theorem linked_range (a : ScopeArena) (n : Nat)
    (hnext : ∀ i, i < n → a.nextFreeOf i = if i + 1 < n then some (i + 1) else none) :
    ∀ (k i : Nat), i + (k + 1) = n → Linked a.nextFreeOf (some i) (List.range' i (k + 1))
  | 0, i, h => by
    refine .cons ?_
    rw [hnext i (by omega), if_neg (by omega)]
    exact .nil
  | k + 1, i, h => by
    refine .cons ?_
    rw [hnext i (by omega), if_pos (by omega)]
    exact linked_range a n hnext k (i + 1) (by omega)

theorem Inv.new {capacity anchorCapacity : Nat} (h : ScopeArena.new capacity anchorCapacity = .ok a) : Inv p a [] := by
  unfold ScopeArena.new at h
  simp only at h
  split at h
  · cases h
  cases h
  generalize hn : max capacity 1 = n
  have hslot : ∀ i (slot : ScopeSlot), ((List.range n).map fun index =>
      (⟨0, none, 0, 0, if index + 1 < n then some (index + 1) else none⟩ : ScopeSlot))[i]? = some slot →
      i < n ∧ slot = ⟨0, none, 0, 0, if i + 1 < n then some (i + 1) else none⟩ := by
    intro i slot hs
    rw [List.getElem?_map] at hs
    obtain ⟨j, hj, rfl⟩ := Option.map_eq_some_iff.1 hs
    obtain ⟨hlt, rfl⟩ := List.getElem?_eq_some_iff.1 hj
    rw [List.length_range] at hlt
    rw [List.getElem_range]
    exact ⟨hlt, rfl⟩
  have hget : ∀ i, i < n → ((List.range n).map fun index =>
      (⟨0, none, 0, 0, if index + 1 < n then some (index + 1) else none⟩ : ScopeSlot))[i]? =
      some ⟨0, none, 0, 0, if i + 1 < n then some (i + 1) else none⟩ := by
    intro i hi
    rw [List.getElem?_map, List.getElem?_range hi]
    rfl
  refine ⟨?_, ⟨List.range' 0 n, ?_, fun i hi => ?_⟩, ?_, ?_, ?_, ?_, ?_⟩
  · simp
  · obtain ⟨k, rfl⟩ : ∃ k, n = k + 1 := ⟨n - 1, by omega⟩
    refine linked_range _ (k + 1) (fun i hi => ?_) k 0 (by omega)
    unfold nextFreeOf
    rw [hget i hi]
    rfl
  · refine ⟨_, hget i ?_, rfl⟩
    simpa using hi
  · intro i slot hs
    obtain ⟨-, rfl⟩ := hslot i slot hs
    have : List.countP (fun s : ScopeSlot => decide (s.refs ≠ 0 ∧ s.parent = some i)) ((List.range n).map fun index =>
        (⟨0, none, 0, 0, if index + 1 < n then some (index + 1) else none⟩ : ScopeSlot)) = 0 := by
      rw [List.countP_eq_zero]
      intro s hs
      obtain ⟨j, -, rfl⟩ := List.mem_map.1 hs
      simp
    rw [children, this]
    rfl
  · intro i hi
    cases hi
  · intro i slot hs hr
    obtain ⟨-, rfl⟩ := hslot i slot hs
    exact absurd rfl hr
  · intro i slot parent hs hr
    obtain ⟨-, rfl⟩ := hslot i slot hs
    exact absurd rfl hr
  · intro anchor m i hm hi
    rw [List.getElem?_replicate] at hm
    split at hm
    · cases hm
      cases hi
    · cases hm

end ScopeArena

/-! ## Runs -/

/-- A lease, and the chain of resources it was handed out for. -/
structure ScopeLease where
  id : Nat
  chain : List Nat
  deriving DecidableEq, Repr

structure ScopeSession where
  arena : ScopeArena
  leases : List ScopeLease

/-- What a session does; leases are named by their place among those held. -/
inductive ScopeOp where
  | root (resource : Nat)
  | enter (lease resource : Nat)
  | clone (lease : Nat)
  | release (lease : Nat)
  | resolve (lease initialTarget anchor : Nat)
  | resolveNode (lease start : Nat)

namespace ScopeSession

/-- A call that returned a lease, or failed. -/
def grant (result : Except ScopeError Nat × ScopeArena) (chain : List Nat) (leases : List ScopeLease) : ScopeSession :=
  match result with
  | (.ok id, a) => ⟨a, ⟨id, chain⟩ :: leases⟩
  | (.error _, a) => ⟨a, leases⟩

def apply (p : ReferencePlan) (s : ScopeSession) : ScopeOp → ScopeSession
  | .root resource => grant (s.arena.root resource) [resource] s.leases
  | .enter k resource => match s.leases[k]? with
    | none => s
    | some lease => grant (s.arena.enter lease.id resource p.maxDynamicScopeDepth)
        (DynamicPlan.enterChain lease.chain resource) s.leases
  | .clone k => match s.leases[k]? with
    | none => s
    | some lease => match s.arena.retain lease.id with
      | .ok a => ⟨a, lease :: s.leases⟩
      | .error _ => s
  | .release k => match s.leases[k]? with
    | none => s
    | some lease => ⟨s.arena.release lease.id, s.leases.eraseIdx k⟩
  | .resolve k initialTarget anchor => match s.leases[k]? with
    | none => s
    | some lease => ⟨(p.resolveDynamicTarget initialTarget anchor lease.id s.arena).2, s.leases⟩
  | .resolveNode k start => match s.leases[k]? with
    | none => s
    | some lease =>
      let result := p.resolveRuntimeNode start lease.id s.arena
      grant (result.1.map Prod.snd, result.2) (((p.follow start lease.chain).map Prod.snd).getD [])
        (s.leases.eraseIdx k)

def run (p : ReferencePlan) (s : ScopeSession) (ops : List ScopeOp) : ScopeSession := ops.foldl (apply p) s

/-- The arena has a reference for every lease, and for each the chain it was handed out for. -/
structure Sound (p : ReferencePlan) (s : ScopeSession) : Prop where
  inv : ScopeArena.Inv p s.arena (s.leases.map ScopeLease.id)
  chains : ∀ lease ∈ s.leases, s.arena.HasChain lease.id lease.chain

variable {p : ReferencePlan} {s : ScopeSession}

namespace Sound

/-- A call that hands out a lease, beside leases whose chains it keeps. -/
theorem grant {leases : List ScopeLease} {chain : List Nat} {a : ScopeArena}
    {result : Except ScopeError Nat × ScopeArena} (hchains : ∀ lease ∈ leases, a.HasChain lease.id lease.chain)
    (h : ScopeArena.Granted p a (leases.map ScopeLease.id) chain result) : Sound p (grant result chain leases) := by
  have hkept : ∀ {a' : ScopeArena}, ScopeArena.Keeps (leases.map ScopeLease.id) a a' →
      ∀ lease ∈ leases, a'.HasChain lease.id lease.chain := fun hkeeps lease hl =>
    hkeeps lease.id (List.mem_map_of_mem hl) _ (hchains lease hl)
  obtain ⟨_ | id, a'⟩ := result
  · exact ⟨h.1, hkept h.2⟩
  · refine ⟨h.1, fun lease hl => ?_⟩
    rcases List.mem_cons.1 hl with rfl | hl
    · exact h.2.1
    · exact hkept h.2.2 lease hl

/-- Taking a lease out of those held. -/
theorem take (h : Sound p s) {k : Nat} {lease : ScopeLease} (hk : s.leases[k]? = some lease) :
    ScopeArena.Inv p s.arena (lease.id :: (s.leases.eraseIdx k).map ScopeLease.id) := by
  obtain ⟨hlt, rfl⟩ := List.getElem?_eq_some_iff.1 hk
  exact h.inv.perm ((List.getElem_cons_eraseIdx_perm hlt).map ScopeLease.id).symm

/-- **One operation**: every lease still held keeps its scope and its chain. -/
theorem apply (h : Sound p s) (op : ScopeOp) : Sound p (apply p s op) := by
  cases op with
  | root resource => exact grant h.chains (h.inv.root resource)
  | enter k resource =>
    simp only [ScopeSession.apply]
    cases hk : s.leases[k]? with
    | none => exact h
    | some lease =>
      have hl := List.mem_of_getElem? hk
      exact grant h.chains (h.inv.enter (List.mem_map_of_mem hl) (h.chains lease hl) resource)
  | clone k =>
    simp only [ScopeSession.apply]
    cases hk : s.leases[k]? with
    | none => exact h
    | some lease =>
      have hl := List.mem_of_getElem? hk
      cases hretain : s.arena.retain lease.id with
      | error e =>
        simp only [hretain]
        exact h
      | ok a =>
        simp only [hretain]
        obtain ⟨hinv, hsame⟩ := h.inv.retain (List.mem_map_of_mem hl) hretain
        refine ⟨hinv, fun lease' hl' => hsame.hasChain.2 (h.chains lease' ?_)⟩
        rcases List.mem_cons.1 hl' with rfl | hl'
        · exact hl
        · exact hl'
  | release k =>
    simp only [ScopeSession.apply]
    cases hk : s.leases[k]? with
    | none => exact h
    | some lease =>
      obtain ⟨hinv, hsame⟩ := (h.take hk).release
      exact ⟨hinv, fun lease' hl' => hsame.hasChain.2 (h.chains lease' (List.mem_of_mem_eraseIdx hl'))⟩
  | resolve k initialTarget anchor =>
    simp only [ScopeSession.apply]
    cases hk : s.leases[k]? with
    | none => exact h
    | some lease =>
      have hl := List.mem_of_getElem? hk
      obtain ⟨hinv, hslots, -⟩ :=
        h.inv.resolveDynamicTarget (List.mem_map_of_mem hl) (h.chains lease hl) initialTarget anchor
      exact ⟨hinv, fun lease' hl' => (ScopeArena.hasChain_congr hslots).2 (h.chains lease' hl')⟩
  | resolveNode k start =>
    simp only [ScopeSession.apply]
    cases hk : s.leases[k]? with
    | none => exact h
    | some lease =>
      have hl := List.mem_of_getElem? hk
      have hresolved := ScopeArena.Inv.resolveNodeLoop p.nodes.length start lease.id s.arena lease.chain (h.take hk)
        (h.chains lease hl)
      refine grant (fun lease' hl' => h.chains lease' (List.mem_of_mem_eraseIdx hl')) ?_
      revert hresolved
      show ScopeArena.NodeResolved p s.arena _ (p.follow start lease.chain)
        (p.resolveRuntimeNode start lease.id s.arena) → _
      generalize p.resolveRuntimeNode start lease.id s.arena = result
      obtain ⟨_ | ⟨node, id⟩, a⟩ := result
      · exact fun hresolved => hresolved
      · rintro ⟨hinv, hkeeps, chain, hfollow, hchain⟩
        rw [hfollow]
        exact ⟨hinv, hchain, hkeeps⟩

/-- **And every run of them.** -/
theorem run (h : Sound p s) (ops : List ScopeOp) : Sound p (run p s ops) := by
  induction ops generalizing s with
  | nil => exact h
  | cons op ops ih => exact ih (h.apply op)

end Sound

theorem Sound.new {capacity anchorCapacity : Nat} {a : ScopeArena}
    (h : ScopeArena.new capacity anchorCapacity = .ok a) :
    Sound p ⟨a, []⟩ :=
  ⟨ScopeArena.Inv.new h, fun _ hl => by cases hl⟩

end ScopeSession

/-- **Dynamic references resolve to the outermost binding**, after any run of scope operations on one arena.  For every
lease that is held: its scope and all it was entered from are live and have the chain it was handed out for; an anchor
resolves to its outermost binding on that chain (an error only where the plan allows no scope at all); what the memo
answers is that same target; and a node resolves to the one its references lead to on the chain, or to an error.  A
resolved node is no reference, whatever the plan's nodes and the state of the arena. -/
theorem dynamicReferences_outermost (p : ReferencePlan) (capacity anchorCapacity : Nat) (a : ScopeArena)
    (hnew : ScopeArena.new capacity anchorCapacity = .ok a) (ops : List ScopeOp) :
    let s := ScopeSession.run p ⟨a, []⟩ ops
    (∀ lease ∈ s.leases, s.arena.liveChain lease.id = some lease.chain ∧
      (∀ initialTarget anchor,
        (p.resolveDynamicTarget initialTarget anchor lease.id s.arena).1 =
            .ok (p.dynamic.outermostTarget initialTarget anchor lease.chain) ∨
          p.maxDynamicScopeDepth = 0 ∧
            (p.resolveDynamicTarget initialTarget anchor lease.id s.arena).1 = .error ⟨.dynamicScopeDepth, 1, 0⟩) ∧
      (∀ initialTarget anchor generation target, s.arena.generation lease.id = .ok generation →
        s.arena.dynamicMemoGet ⟨lease.id, generation, anchor, initialTarget⟩ = some target →
        target = p.dynamic.outermostTarget initialTarget anchor lease.chain) ∧
      ∀ start node scope, (p.resolveRuntimeNode start lease.id s.arena).1 = .ok (node, scope) →
        ∃ chain, p.follow start lease.chain = some (node, chain) ∧
          (p.resolveRuntimeNode start lease.id s.arena).2.liveChain scope = some chain) ∧
    ∀ (start scope : Nat) (a : ScopeArena), match (p.resolveRuntimeNode start scope a).1 with
      | .ok (node, _) => ∃ entry, p.nodes[node]? = some entry ∧ entry.isReference = false
      | .error _ => True := by
  intro s
  have hsound : ScopeSession.Sound p s := ScopeSession.Sound.run (.new hnew) ops
  refine ⟨fun lease hl => ?_, fun start scope a => ?_⟩
  · have hid : lease.id ∈ s.leases.map ScopeLease.id := List.mem_map_of_mem hl
    have hc := hsound.chains lease hl
    refine ⟨hsound.inv.liveChain hid hc, fun initialTarget anchor => ?_,
      fun initialTarget anchor generation target hg hhit => ?_,
      fun start node scope hok => ?_⟩
    · rw [← DynamicPlan.resolveChain_outermost]
      exact (hsound.inv.resolveDynamicTarget hid hc initialTarget anchor).2.2
    · rw [← DynamicPlan.resolveChain_outermost]
      refine hsound.inv.memo_hit hid hc ?_ hhit
      unfold ScopeArena.generation at hg
      split at hg
      · rename_i hget
        cases hg
        exact hget
      · cases hg
    · obtain ⟨k, hk⟩ := List.getElem?_of_mem hl
      have hresolved := ScopeArena.Inv.resolveNodeLoop p.nodes.length start lease.id s.arena lease.chain
        (hsound.take hk) hc
      change ScopeArena.NodeResolved p s.arena _ (p.follow start lease.chain)
        (p.resolveRuntimeNode start lease.id s.arena) at hresolved
      revert hresolved hok
      generalize p.resolveRuntimeNode start lease.id s.arena = result
      obtain ⟨_ | ⟨node', id⟩, a'⟩ := result
      · intro hok
        cases hok
      · rintro hok ⟨hinv, -, chain, hfollow, hchain⟩
        cases hok
        exact ⟨chain, hfollow, hinv.liveChain List.mem_cons_self hchain⟩
  · cases hr : (p.resolveRuntimeNode start scope a).1 with
    | error e => trivial
    | ok r => exact ScopeArena.resolveNodeLoop_node _ _ _ _ r hr

/-- Two resources that both bind the anchor, and a reference to it that starts in the second. -/
def dynamicSample : ReferencePlan where
  nodes := [.dynamicRef 2 0, .unsupported, .unsupported]
  dynamic := {
    enabled := true
    rootResource := 0
    nodeResources := [1, 0, 1]
    anchorNames := [some 0, some 0]
    bindings := [⟨0, 0, 1⟩, ⟨0, 1, 2⟩] }
  maxDynamicScopeDepth := 2
  maxActiveValidators := 4

/-- The second root takes the slot of the first, under which the memo has the first's target. -/
theorem dynamicReferences_outermost_reused :
    (dynamicSample.resolveDynamicTarget 2 0 0 (ScopeSession.run dynamicSample
      ⟨⟨[⟨0, none, 0, 0, none⟩], [0], [⟨0, none, 0, u32Size - 1, u32Size - 1⟩], some 0⟩, []⟩
      [.root 0, .resolve 0 2 0, .release 0, .root 1]).arena).1 = .ok 2 := by
  have h := (dynamicReferences_outermost dynamicSample 1 1 _ rfl [.root 0, .resolve 0 2 0, .release 0, .root 1]).1
    ⟨0, [1]⟩ (by decide +kernel)
  rcases h.2.1 2 0 with hok | ⟨hzero, -⟩
  · exact hok
  · cases hzero

end MaskForge
