import MaskForge.Structured.ScopeArena
/-!
# ScopeChains — what the scopes of a session stand for

A scope stands for the resources on its parent chain.  The invariant ties the arena to the leases that are held: every
reference of a slot is a lease or a scope entered from it, so a scope that anything holds is never freed, and its slot's
generation still is the one its memo was written under.
-/
namespace MaskForge

/-- What a live slot says of its scope. -/
def ScopeSlot.scope (s : ScopeSlot) : Nat × Option Nat × Nat := (s.resource, s.parent, s.depth)

namespace ScopeArena

/-! ## Reading the arena -/

def parentOf (a : ScopeArena) (id : Nat) : Option Nat := a.slots[id]?.bind ScopeSlot.parent

def nextFreeOf (a : ScopeArena) (id : Nat) : Option Nat := a.slots[id]?.bind ScopeSlot.nextFree

def resourceOf (a : ScopeArena) (id : Nat) : Option Nat := a.slots[id]?.map ScopeSlot.resource

/-- The scope has these resources, innermost first. -/
def HasChain (a : ScopeArena) (id : Nat) (chain : List Nat) : Prop :=
  ∃ ids, Linked a.parentOf (some id) ids ∧ ids.map a.resourceOf = chain.map some

/-- Something holds the slot. -/
def Live (a : ScopeArena) (id : Nat) : Prop := ∃ slot, a.slots[id]? = some slot ∧ slot.refs ≠ 0

/-- How many live scopes were entered from this one. -/
def children (a : ScopeArena) (id : Nat) : Nat := a.slots.countP (fun s => s.refs ≠ 0 ∧ s.parent = some id)

variable {p : ReferencePlan} {a a' : ScopeArena} {held : List Nat} {id : Nat} {chain : List Nat} {slot : ScopeSlot}

theorem HasChain.unique {chain' : List Nat} (h : a.HasChain id chain) (h' : a.HasChain id chain') : chain = chain' := by
  obtain ⟨ids, hl, hc⟩ := h
  obtain ⟨ids', hl', hc'⟩ := h'
  rw [hl.unique hl', hc'] at hc
  exact (Option.some_injective _).list_map hc.symm

theorem parentOf_eq (h : a.slots[id]? = some slot) : a.parentOf id = slot.parent := by
  unfold parentOf
  rw [h]
  rfl

theorem resourceOf_eq (h : a.slots[id]? = some slot) : a.resourceOf id = some slot.resource := by
  unfold resourceOf
  rw [h]
  rfl

theorem lt_of_slot (h : a.slots[id]? = some slot) : id < a.slots.length := (List.getElem?_eq_some_iff.1 h).1

theorem slot_ok (h : a.slots[id]? = some slot) : a.slot id = .ok slot := by
  unfold ScopeArena.slot
  rw [h]

/-! ## The invariant -/

/-- The arena, with one reference for each of these leases. -/
structure Inv (p : ReferencePlan) (a : ScopeArena) (held : List Nat) : Prop where
  generations : a.generations.length = a.slots.length
  free : ∃ free, Linked a.nextFreeOf a.freeHead free ∧ ∀ id ∈ free, ∃ slot : ScopeSlot, a.slots[id]? = some slot ∧
  slot.refs = 0
  counted : ∀ (id : Nat) (slot : ScopeSlot), a.slots[id]? = some slot → slot.refs = held.count id + a.children id
  within : ∀ id ∈ held, id < a.slots.length
  outermost : ∀ (id : Nat) (slot : ScopeSlot), a.slots[id]? = some slot → slot.refs ≠ 0 → slot.parent = none →
  slot.depth = 1
  entered : ∀ (id : Nat) (slot : ScopeSlot) (parent : Nat), a.slots[id]? = some slot → slot.refs ≠ 0 →
    slot.parent = some parent → ∃ above : ScopeSlot, a.slots[parent]? = some above ∧ slot.depth = above.depth + 1 ∧
      slot.depth ≤ p.maxDynamicScopeDepth
  memo : ∀ (anchor : Nat) (m : DynamicMemoSlot) (id : Nat), a.dynamicMemo[anchor]? = some m → m.scopeIndex = some id →
    ∃ generation, a.generations[id]? = some generation ∧ m.scopeGeneration ≤ generation ∧
      (m.scopeGeneration = generation → a.Live id → ∀ chain, a.HasChain id chain →
        m.target = p.dynamic.resolveChain anchor m.initialTarget chain)

namespace Inv

/-- The order of the leases does not matter. -/
theorem perm {held' : List Nat} (h : Inv p a held) (hp : held.Perm held') : Inv p a held' where
  generations := h.generations
  free := h.free
  counted id slot hs := by rw [← hp.count_eq]; exact h.counted id slot hs
  within id hid := h.within id (hp.mem_iff.2 hid)
  outermost := h.outermost
  entered := h.entered
  memo := h.memo

/-- **What is held is live.** -/
theorem live (h : Inv p a held) (hid : id ∈ held) : ∃ slot, a.slots[id]? = some slot ∧ slot.refs ≠ 0 := by
  have hlt := h.within id hid
  refine ⟨a.slots[id], List.getElem?_eq_getElem hlt, ?_⟩
  have hcount := h.counted id _ (List.getElem?_eq_getElem hlt)
  have := List.count_pos_iff.2 hid
  omega

theorem children_pos {parent : Nat} (hs : a.slots[id]? = some slot) (hr : slot.refs ≠ 0)
    (hp : slot.parent = some parent) : 0 < a.children parent := by
  refine List.countP_pos_iff.2 ⟨slot, List.mem_of_getElem? hs, ?_⟩
  simp [hr, hp]

/-- **So is what a live scope was entered from.** -/
theorem above (h : Inv p a held) {parent : Nat} (hs : a.slots[id]? = some slot) (hr : slot.refs ≠ 0)
    (hp : slot.parent = some parent) :
    ∃ above, a.slots[parent]? = some above ∧ above.refs ≠ 0 ∧ slot.depth = above.depth + 1 := by
  obtain ⟨above, habove, hdepth, -⟩ := h.entered id slot parent hs hr hp
  refine ⟨above, habove, ?_, hdepth⟩
  have := h.counted parent above habove
  have := children_pos hs hr hp
  omega

/-- **A live scope has a chain**, of live scopes, as long as the scope is deep. -/
theorem exists_ids (h : Inv p a held) :
    ∀ (depth id : Nat) (slot : ScopeSlot), a.slots[id]? = some slot → slot.refs ≠ 0 →
    slot.depth = depth → ∃ ids, Linked a.parentOf (some id) ids ∧ ids.length = depth ∧ ∀ i ∈ ids, a.Live i := by
  intro depth
  induction depth with
  | zero =>
    intro id slot hs hr hd
    cases hp : slot.parent with
    | none =>
      have := h.outermost id slot hs hr hp
      omega
    | some parent =>
      obtain ⟨above, -, -, hdepth⟩ := h.above hs hr hp
      omega
  | succ depth ih =>
    intro id slot hs hr hd
    have hlive : a.Live id := ⟨slot, hs, hr⟩
    cases hp : slot.parent with
    | none =>
      have hdepth := h.outermost id slot hs hr hp
      refine ⟨[id], .cons ?_, ?_, ?_⟩
      · rw [parentOf_eq hs, hp]
        exact .nil
      · simp
        omega
      · intro i hi
        rwa [List.mem_singleton.1 hi]
    | some parent =>
      obtain ⟨above, habove, hr', hdepth⟩ := h.above hs hr hp
      obtain ⟨ids, hl, hlen, hids⟩ := ih parent above habove hr' (by omega)
      refine ⟨id :: ids, .cons ?_, ?_, ?_⟩
      · rw [parentOf_eq hs, hp]
        exact hl
      · simp [hlen]
      · intro i hi
        rcases List.mem_cons.1 hi with rfl | hi
        · exact hlive
        · exact hids i hi

/-- The slots of a live scope's chain are live. -/
theorem live_chain (h : Inv p a held) (hlive : a.Live id) {ids : List Nat} (hl : Linked a.parentOf (some id) ids) :
    ∀ i ∈ ids, a.Live i := by
  obtain ⟨slot, hs, hr⟩ := hlive
  obtain ⟨ids', hl', -, hids⟩ := h.exists_ids _ id slot hs hr rfl
  rwa [hl.unique hl']

end Inv
/-! ## Changes that leave the scopes alone -/

/-- Only reference counts and the free list differ. -/
structure SameScopes (a a' : ScopeArena) : Prop where
  generations : a'.generations = a.generations
  memo : a'.dynamicMemo = a.dynamicMemo
  scopes : a'.slots.map ScopeSlot.scope = a.slots.map ScopeSlot.scope

namespace SameScopes

theorem refl (a : ScopeArena) : SameScopes a a := ⟨rfl, rfl, rfl⟩

theorem symm (h : SameScopes a a') : SameScopes a' a := ⟨h.generations.symm, h.memo.symm, h.scopes.symm⟩

theorem trans {a'' : ScopeArena} (h : SameScopes a a') (h' : SameScopes a' a'') : SameScopes a a'' :=
  ⟨h'.generations.trans h.generations, h'.memo.trans h.memo, h'.scopes.trans h.scopes⟩

theorem length (h : SameScopes a a') : a'.slots.length = a.slots.length := by
  simpa using congrArg List.length h.scopes

theorem find (h : SameScopes a a') {slot' : ScopeSlot} (hs : a'.slots[id]? = some slot') :
    ∃ slot, a.slots[id]? = some slot ∧ slot'.scope = slot.scope := by
  have := congrArg (fun l => l[id]?) h.scopes
  simp only [List.getElem?_map, hs, Option.map_some] at this
  obtain ⟨slot, hs', heq⟩ := Option.map_eq_some_iff.1 this.symm
  exact ⟨slot, hs', heq.symm⟩

theorem parentOf (h : SameScopes a a') : a'.parentOf = a.parentOf := by
  funext id
  have := congrArg (fun l => l[id]?.bind (fun s => s.2.1)) h.scopes
  simpa [List.getElem?_map, Option.bind_map, ScopeArena.parentOf, Function.comp_def, ScopeSlot.scope] using this

theorem resourceOf (h : SameScopes a a') : a'.resourceOf = a.resourceOf := by
  funext id
  have := congrArg (fun l => l[id]?.map (fun s => s.1)) h.scopes
  simpa [List.getElem?_map, ScopeArena.resourceOf, Function.comp_def, ScopeSlot.scope] using this

theorem hasChain (h : SameScopes a a') : a'.HasChain id chain ↔ a.HasChain id chain := by
  unfold HasChain
  rw [h.parentOf, h.resourceOf]

theorem setSlot (hs : a.slots[id]? = some slot) (slot' : ScopeSlot) (heq : slot'.scope = slot.scope) :
    SameScopes a (a.setSlot id slot') := by
  refine ⟨rfl, rfl, ?_⟩
  show (a.slots.set id slot').map ScopeSlot.scope = _
  rw [List.map_set, heq]
  obtain ⟨hlt, rfl⟩ := List.getElem?_eq_some_iff.1 hs
  refine List.ext_getElem? fun i => ?_
  rw [List.getElem?_set]
  split
  · rename_i hi
    subst hi
    simp [hlt]
  · rfl

end SameScopes

/-- Where the scopes are the same and no slot came to life, the rest of the invariant is about counts and
the free list. -/
theorem Inv.of_sameScopes {held' : List Nat} (h : Inv p a held) (hsame : SameScopes a a')
    (hlive : ∀ id, a'.Live id → a.Live id)
    (hfree : ∃ free, Linked a'.nextFreeOf a'.freeHead free ∧
      ∀ id ∈ free, ∃ slot : ScopeSlot, a'.slots[id]? = some slot ∧ slot.refs = 0)
    (hcounted : ∀ (id : Nat) (slot : ScopeSlot), a'.slots[id]? = some slot →
      slot.refs = held'.count id + a'.children id)
    (hwithin : ∀ id ∈ held', id < a.slots.length) : Inv p a' held' where
  generations := by rw [hsame.generations, hsame.length, h.generations]
  free := hfree
  counted := hcounted
  within id hid := by
    rw [hsame.length]
    exact hwithin id hid
  outermost id slot' hs hr hp := by
    obtain ⟨slot, hslot, heq⟩ := hsame.find hs
    obtain ⟨slot₀, hs₀, hr₀⟩ := hlive id ⟨slot', hs, hr⟩
    rw [hslot] at hs₀
    cases hs₀
    simp only [ScopeSlot.scope, Prod.mk.injEq] at heq
    rw [heq.2.2]
    exact h.outermost id slot hslot hr₀ (heq.2.1 ▸ hp)
  entered id slot' parent hs hr hp := by
    obtain ⟨slot, hslot, heq⟩ := hsame.find hs
    obtain ⟨slot₀, hs₀, hr₀⟩ := hlive id ⟨slot', hs, hr⟩
    rw [hslot] at hs₀
    cases hs₀
    simp only [ScopeSlot.scope, Prod.mk.injEq] at heq
    obtain ⟨above, habove, hdepth, hmax⟩ := h.entered id slot parent hslot hr₀ (heq.2.1 ▸ hp)
    obtain ⟨above', habove', heq'⟩ := hsame.symm.find habove
    simp only [ScopeSlot.scope, Prod.mk.injEq] at heq'
    exact ⟨above', habove', by rw [heq.2.2, hdepth, heq'.2.2], by rw [heq.2.2]; exact hmax⟩
  memo anchor m id hm hid := by
    rw [hsame.memo] at hm
    rw [hsame.generations]
    obtain ⟨generation, hg, hle, hvalid⟩ := h.memo anchor m id hm hid
    exact ⟨generation, hg, hle, fun heq hl chain hc => hvalid heq (hlive id hl) chain (hsame.hasChain.1 hc)⟩

/-! ## One slot's references -/

/-- What changing a slot does to the number of scopes entered from another. -/
theorem children_set (hs : a.slots[id]? = some slot) (slot' : ScopeSlot) (parent : Nat) :
    (a.slots.set id slot').countP (fun s => s.refs ≠ 0 ∧ s.parent = some parent) +
        (if slot.refs ≠ 0 ∧ slot.parent = some parent then 1 else 0) =
      a.children parent + (if slot'.refs ≠ 0 ∧ slot'.parent = some parent then 1 else 0) := by
  obtain ⟨hlt, rfl⟩ := List.getElem?_eq_some_iff.1 hs
  rw [List.countP_set hlt]
  have hpos : (if a.slots[id].refs ≠ 0 ∧ a.slots[id].parent = some parent then 1 else 0) ≤ a.children parent := by
    split
    · rename_i hc
      exact List.countP_pos_iff.2 ⟨_, List.getElem_mem hlt, by simpa using hc⟩
    · exact Nat.zero_le _
  unfold children at hpos ⊢
  simp only [decide_eq_true_eq]
  omega

theorem getElem?_set_ne {slots : List ScopeSlot} {i : Nat} (slot' : ScopeSlot) (hi : i ≠ id) :
    (slots.set id slot')[i]? = slots[i]? := by
  rw [List.getElem?_set, if_neg (Ne.symm hi)]

theorem getElem?_set_self (hs : a.slots[id]? = some slot) (slot' : ScopeSlot) :
    (a.slots.set id slot')[id]? = some slot' := by
  rw [List.getElem?_set, if_pos rfl, if_pos (lt_of_slot hs)]

/-- A live slot whose references are counted anew, and stays live. -/
theorem Inv.recount {held' : List Nat} {refs : Nat} (h : Inv p a held) (hs : a.slots[id]? = some slot)
    (hr : slot.refs ≠ 0) (hr' : refs ≠ 0) (hself : refs + held.count id = slot.refs + held'.count id)
    (hother : ∀ i, i ≠ id → held'.count i = held.count i) : Inv p (a.setSlot id { slot with refs }) held' := by
  have hsame : SameScopes a (a.setSlot id { slot with refs }) := .setSlot hs _ rfl
  have hchildren : ∀ i, (a.setSlot id { slot with refs }).children i = a.children i := by
    intro i
    have := children_set hs { slot with refs } i
    simpa [hr, hr', children, ScopeArena.setSlot] using this
  refine h.of_sameScopes hsame ?_ ?_ ?_ ?_
  · rintro i ⟨s, hs', hrefs⟩
    by_cases hi : i = id
    · exact hi ▸ ⟨slot, hs, hr⟩
    · rw [show (a.setSlot id { slot with refs }).slots = a.slots.set id { slot with refs } from rfl,
        getElem?_set_ne _ hi] at hs'
      exact ⟨s, hs', hrefs⟩
  · obtain ⟨free, hl, hfree⟩ := h.free
    have hne : ∀ i ∈ free, i ≠ id := by
      rintro i hi rfl
      obtain ⟨s, hs', hzero⟩ := hfree i hi
      rw [hs] at hs'
      cases hs'
      exact hr hzero
    refine ⟨free, hl.congr fun i hi => ?_, fun i hi => ?_⟩
    · show ((a.slots.set id _)[i]?).bind _ = _
      rw [getElem?_set_ne _ (hne i hi)]
      rfl
    · show ∃ s, (a.slots.set id _)[i]? = some s ∧ _
      rw [getElem?_set_ne _ (hne i hi)]
      exact hfree i hi
  · intro i s hs'
    change (a.slots.set id _)[i]? = some s at hs'
    rw [hchildren]
    by_cases hi : i = id
    · subst hi
      rw [getElem?_set_self hs] at hs'
      cases hs'
      have := h.counted i slot hs
      show refs = _
      omega
    · rw [getElem?_set_ne _ hi] at hs'
      rw [hother i hi]
      exact h.counted i s hs'
  · intro i hi
    by_cases hid : i = id
    · exact hid ▸ lt_of_slot hs
    · have := List.count_pos_iff.2 hi
      rw [hother i hid] at this
      exact h.within i (List.count_pos_iff.1 this)

/-! ## Retaining and releasing -/

/-- A lease more. -/
theorem Inv.retain (h : Inv p a held) (hid : id ∈ held) (hr : a.retain id = .ok a') :
    Inv p a' (id :: held) ∧ SameScopes a a' := by
  obtain ⟨slot, hs, hrefs⟩ := h.live hid
  unfold ScopeArena.retain at hr
  rw [slot_ok hs] at hr
  change (if slot.refs = 0 ∨ usizeMax ≤ slot.refs then _ else _) = _ at hr
  split at hr
  · cases hr
  · cases hr
    refine ⟨h.recount hs hrefs (Nat.succ_ne_zero _) ?_ fun i hi => ?_, .setSlot hs _ rfl⟩
    · rw [List.count_cons_self]
      omega
    · rw [List.count_cons_of_ne hi.symm]

/-- **The last lease of a scope**: nothing was entered from it, and the reference to its parent is left over. -/
theorem Inv.freed (h : Inv p a (id :: held)) (hs : a.slots[id]? = some slot) (hr : slot.refs = 1) :
    Inv p (a.freed id slot) (slot.parent.toList ++ held) ∧ SameScopes a (a.freed id slot) := by
  have hr0 : slot.refs ≠ 0 := by omega
  have hself := h.counted id slot hs
  rw [List.count_cons_self] at hself
  have hnone : a.children id = 0 := by omega
  have hheld : held.count id = 0 := by omega
  have hparent : ∀ parent, slot.parent = some parent → parent ≠ id := by
    rintro parent hp rfl
    have := Inv.children_pos hs hr0 hp
    omega
  have hsame : SameScopes a (a.freed id slot) := by
    have := SameScopes.setSlot hs { slot with refs := 0, nextFree := a.freeHead } rfl
    exact ⟨this.generations, this.memo, this.scopes⟩
  refine ⟨h.of_sameScopes hsame ?_ ?_ ?_ ?_, hsame⟩
  · rintro i ⟨s, hs', hrefs⟩
    change (a.slots.set id _)[i]? = some s at hs'
    by_cases hi : i = id
    · exact hi ▸ ⟨slot, hs, hr0⟩
    · rw [getElem?_set_ne _ hi] at hs'
      exact ⟨s, hs', hrefs⟩
  · obtain ⟨free, hl, hfree⟩ := h.free
    have hne : ∀ i ∈ free, i ≠ id := by
      rintro i hi rfl
      obtain ⟨s, hs', hzero⟩ := hfree i hi
      rw [hs] at hs'
      cases hs'
      exact hr0 hzero
    refine ⟨id :: free, .cons ?_, fun i hi => ?_⟩
    · have hnext : (a.freed id slot).nextFreeOf id = a.freeHead := by
        show ((a.slots.set id _)[id]?).bind _ = _
        rw [getElem?_set_self hs]
        rfl
      rw [hnext]
      refine hl.congr fun i hi => ?_
      show ((a.slots.set id _)[i]?).bind _ = _
      rw [getElem?_set_ne _ (hne i hi)]
      rfl
    · show ∃ s, (a.slots.set id _)[i]? = some s ∧ _
      rcases List.mem_cons.1 hi with rfl | hi
      · exact ⟨_, getElem?_set_self hs _, rfl⟩
      · rw [getElem?_set_ne _ (hne i hi)]
        exact hfree i hi
  · intro i s hs'
    change (a.slots.set id _)[i]? = some s at hs'
    have hchildren : (a.freed id slot).children i + (if slot.parent = some i then 1 else 0) = a.children i := by
      have := children_set hs { slot with refs := 0, nextFree := a.freeHead } i
      simpa [hr0, children, ScopeArena.freed, ScopeArena.setSlot] using this
    have hpending : slot.parent.toList.count i = if slot.parent = some i then 1 else 0 := by
      cases hp : slot.parent with
      | none => simp
      | some parent => simp [List.count_singleton]
    rw [List.count_append, hpending]
    by_cases hi : i = id
    · subst hi
      rw [getElem?_set_self hs] at hs'
      cases hs'
      have : slot.parent ≠ some i := fun hp => hparent i hp rfl
      rw [if_neg this] at hchildren ⊢
      show 0 = _
      omega
    · rw [getElem?_set_ne _ hi] at hs'
      have hcount := h.counted i s hs'
      rw [List.count_cons_of_ne (Ne.symm hi)] at hcount
      omega
  · intro i hi
    rcases List.mem_append.1 hi with hi | hi
    · obtain ⟨above, habove, -⟩ := h.above hs hr0 (Option.mem_toList.1 hi)
      exact lt_of_slot habove
    · exact h.within i (List.mem_cons_of_mem _ hi)

/-- A slot that one reference holds is freed at most once. -/
theorem countP_freed (hs : a.slots[id]? = some slot) (hr : slot.refs = 1) :
    (a.freed id slot).slots.countP (fun s => s.refs = 1) + 1 = a.slots.countP (fun s => s.refs = 1) := by
  obtain ⟨hlt, rfl⟩ := List.getElem?_eq_some_iff.1 hs
  show (a.slots.set id _).countP _ + 1 = _
  have hpos : 0 < a.slots.countP (fun s => s.refs = 1) :=
    List.countP_pos_iff.2 ⟨_, List.getElem_mem hlt, by simpa using hr⟩
  rw [List.countP_set hlt]
  simp [hr]
  omega

theorem Inv.releaseLoop : ∀ (rounds : Nat) (a : ScopeArena) (id : Nat) (held : List Nat), Inv p a (id :: held) →
    a.slots.countP (fun s => s.refs = 1) < rounds →
    Inv p (releaseLoop rounds a id) held ∧ SameScopes a (ScopeArena.releaseLoop rounds a id)
  | 0, a, id, held, h, hlt => absurd hlt (Nat.not_lt_zero _)
  | rounds + 1, a, id, held, h, hlt => by
    obtain ⟨slot, hs, hr⟩ := h.live List.mem_cons_self
    unfold ScopeArena.releaseLoop
    rw [hs]
    show Inv p (if slot.refs ≠ 1 then _ else _) held ∧ SameScopes a (if slot.refs ≠ 1 then _ else _)
    by_cases hone : slot.refs = 1
    · rw [if_neg (by simpa using hone)]
      obtain ⟨hinv, hsame⟩ := h.freed hs hone
      have hcount := countP_freed hs hone
      cases hp : slot.parent with
      | none =>
        rw [hp] at hinv
        exact ⟨hinv, hsame⟩
      | some parent =>
        rw [hp] at hinv
        obtain ⟨hinv', hsame'⟩ := Inv.releaseLoop rounds _ parent held hinv (by omega)
        exact ⟨hinv', hsame.trans hsame'⟩
    · rw [if_pos hone, fetchSub, if_neg hr]
      refine ⟨h.recount hs hr (by omega) ?_ fun i hi => ?_, .setSlot hs _ rfl⟩
      · rw [List.count_cons_self]
        omega
      · rw [List.count_cons_of_ne hi.symm]

/-- **A lease less**: no other lease's scope is freed, and no scope is changed. -/
theorem Inv.release (h : Inv p a (id :: held)) : Inv p (a.release id) held ∧ SameScopes a (a.release id) :=
  Inv.releaseLoop _ a id held h (Nat.lt_succ_of_le List.countP_le_length)

/-! ## Allocating -/

theorem Inv.exists_chain (h : Inv p a held) (hs : a.slots[id]? = some slot) (hr : slot.refs ≠ 0) :
    ∃ chain, a.HasChain id chain ∧ chain.length = slot.depth := by
  obtain ⟨ids, hl, hlen, hids⟩ := h.exists_ids _ id slot hs hr rfl
  refine ⟨ids.map (fun i => (a.resourceOf i).getD 0), ⟨ids, hl, ?_⟩, by rw [List.length_map, hlen]⟩
  rw [List.map_map]
  refine List.map_congr_left fun i hi => ?_
  obtain ⟨s, hs', -⟩ := hids i hi
  show _ = some ((a.resourceOf i).getD 0)
  rw [resourceOf_eq hs']
  rfl

/-- **A live scope's chain does not change where the live slots do not.** -/
theorem Inv.hasChain_iff (h : Inv p a held) (hlive : a.Live id) (hkeep : ∀ i, a.Live i → a'.slots[i]? = a.slots[i]?) :
    a'.HasChain id chain ↔ a.HasChain id chain := by
  have hmono : ∀ chain, a.HasChain id chain → a'.HasChain id chain := by
    rintro chain ⟨ids, hl, hc⟩
    have hids := h.live_chain hlive hl
    refine ⟨ids, hl.congr fun i hi => ?_, ?_⟩
    · unfold parentOf
      rw [hkeep i (hids i hi)]
    · rw [← hc]
      refine List.map_congr_left fun i hi => ?_
      unfold resourceOf
      rw [hkeep i (hids i hi)]
  refine ⟨fun hc => ?_, hmono chain⟩
  obtain ⟨slot, hs, hr⟩ := hlive
  obtain ⟨chain', hc', -⟩ := h.exists_chain hs hr
  rwa [hc.unique (hmono chain' hc')]

/-- What a scope entered from `parent` at this depth needs. -/
def Enterable (p : ReferencePlan) (a : ScopeArena) (depth : Nat) : Option Nat → Prop
  | none => depth = 1
  | some parent => ∃ above : ScopeSlot, a.slots[parent]? = some above ∧ depth = above.depth + 1 ∧
      depth ≤ p.maxDynamicScopeDepth

/-- A free slot has no lease, and nothing was entered from it. -/
theorem Inv.free_slot (h : Inv p a held) (hs : a.slots[id]? = some slot) (hr : slot.refs = 0) :
    held.count id = 0 ∧ a.children id = 0 := by
  have := h.counted id slot hs
  omega

/-- **A slot of the free list becomes a scope**, which takes the reference to its parent over. -/
theorem Inv.taken {parent : Option Nat} {resource depth generation : Nat} (h : Inv p a (parent.toList ++ held))
    (henter : Enterable p a depth parent) (hhead : a.freeHead = some id) (hs : a.slots[id]? = some slot)
    (hg : a.generations[id]? = some generation) :
    Inv p (a.taken id generation slot parent resource depth) (id :: held) := by
  obtain ⟨_, hall, hfree⟩ := h.free
  rw [hhead] at hall
  obtain ⟨free, rfl, hl⟩ := hall.of_some
  obtain ⟨slot₀, hs₀, hzero⟩ := hfree id List.mem_cons_self
  rw [hs] at hs₀
  cases hs₀
  obtain ⟨hcount, hchildren⟩ := h.free_slot hs hzero
  rw [List.count_append] at hcount
  have hne : ∀ i, parent = some i → i ≠ id := by
    rintro i rfl rfl
    simp at hcount
  have hslots : ∀ i, i ≠ id → (a.taken id generation slot parent resource depth).slots[i]? = a.slots[i]? :=
    fun i hi => getElem?_set_ne _ hi
  have hself : (a.taken id generation slot parent resource depth).slots[id]? =
      some { slot with resource, parent, depth, refs := 1 } := getElem?_set_self hs _
  have hlive : ∀ i, a.Live i → i ≠ id := by
    rintro i ⟨s, hs', hr⟩ rfl
    rw [hs] at hs'
    cases hs'
    exact hr hzero
  refine ⟨?_, ?_, ?_, ?_, ?_, ?_, ?_⟩
  · show (a.generations.set id _).length = (a.slots.set id _).length
    rw [List.length_set, List.length_set]
    exact h.generations
  · have hfree' : ∀ i ∈ free, i ≠ id := by
      rintro i hi rfl
      exact (List.nodup_cons.1 hall.nodup).1 hi
    refine ⟨free, ?_, fun i hi => ?_⟩
    · have hnext : a.nextFreeOf id = slot.nextFree := by
        unfold nextFreeOf
        rw [hs]
        rfl
      rw [hnext] at hl
      refine hl.congr fun i hi => ?_
      unfold nextFreeOf
      rw [hslots i (hfree' i hi)]
    · rw [hslots i (hfree' i hi)]
      exact hfree i (List.mem_cons_of_mem _ hi)
  · intro i s hs'
    have hcs := children_set hs { slot with resource, parent, depth, refs := 1 } i
    rw [if_neg (fun hc => hc.1 hzero)] at hcs
    have hpending : parent.toList.count i = if parent = some i then 1 else 0 := by
      cases parent with
      | none => simp
      | some parent => simp [List.count_singleton]
    have hadd : (a.taken id generation slot parent resource depth).children i =
        a.children i + if parent = some i then 1 else 0 := by
      simpa [children, ScopeArena.taken] using hcs
    rw [hadd]
    by_cases hi : i = id
    · subst hi
      rw [hself] at hs'
      cases hs'
      have : parent ≠ some i := fun hp => hne i hp rfl
      rw [List.count_cons_self, if_neg this, hchildren]
      show 1 = _
      omega
    · rw [hslots i hi] at hs'
      rw [h.counted i s hs', List.count_append, hpending, List.count_cons_of_ne (Ne.symm hi)]
      omega
  · intro i hi
    show i < (a.slots.set id _).length
    rw [List.length_set]
    rcases List.mem_cons.1 hi with rfl | hi
    · exact lt_of_slot hs
    · exact h.within i (List.mem_append_right _ hi)
  · intro i s hs' hr hp
    by_cases hi : i = id
    · subst hi
      rw [hself] at hs'
      cases hs'
      simp only at hp
      subst hp
      exact henter
    · rw [hslots i hi] at hs'
      exact h.outermost i s hs' hr hp
  · intro i s above hs' hr hp
    by_cases hi : i = id
    · subst hi
      rw [hself] at hs'
      cases hs'
      simp only at hp
      rw [hslots above (hne above hp)]
      rw [hp] at henter
      exact henter
    · rw [hslots i hi] at hs'
      have : above ≠ id := by
        rintro rfl
        have := Inv.children_pos hs' hr hp
        omega
      rw [hslots above this]
      exact h.entered i s above hs' hr hp
  · intro anchor m i hm hid
    obtain ⟨g, hgi, hle, hvalid⟩ := h.memo anchor m i hm hid
    show ∃ g, (a.generations.set id (generation + 1))[i]? = some g ∧ _
    rw [List.getElem?_set]
    by_cases hi : i = id
    · subst hi
      rw [hg] at hgi
      cases hgi
      rw [if_pos rfl, if_pos (List.getElem?_eq_some_iff.1 hg).1]
      exact ⟨generation + 1, rfl, by omega, fun heq => by omega⟩
    · rw [if_neg (Ne.symm hi)]
      refine ⟨g, hgi, hle, fun heq hl' chain hc => ?_⟩
      obtain ⟨s, hs', hr⟩ := hl'
      rw [hslots i hi] at hs'
      exact hvalid heq ⟨s, hs', hr⟩ chain
        ((h.hasChain_iff ⟨s, hs', hr⟩ fun j hj => hslots j (hlive j hj)).1 hc)

/-- What allocating a scope leaves: the new lease in place of its parent's reference, or all as it was. -/
def Allocated (p : ReferencePlan) (a : ScopeArena) (held : List Nat) (parent : Option Nat) (resource : Nat) :
    Except ScopeError Nat × ScopeArena → Prop
  | (.ok id, a') => Inv p a' (id :: held) ∧ a'.parentOf id = parent ∧ a'.resourceOf id = some resource ∧ ¬a.Live id ∧
      ∀ i, i ≠ id → a'.slots[i]? = a.slots[i]?
  | (.error _, a') => Inv p a' (parent.toList ++ held) ∧ SameScopes a a'

/-- A slot whose generation is spent is taken off the free list, and lost. -/
theorem Inv.skip (h : Inv p a held) (hhead : a.freeHead = some id) (hs : a.slots[id]? = some slot) :
    Inv p { a with freeHead := slot.nextFree } held := by
  refine h.of_sameScopes ⟨rfl, rfl, rfl⟩ (fun _ hl => hl) ?_ h.counted h.within
  obtain ⟨_, hall, hfree⟩ := h.free
  rw [hhead] at hall
  obtain ⟨free, rfl, hl⟩ := hall.of_some
  refine ⟨free, ?_, fun i hi => hfree i (List.mem_cons_of_mem _ hi)⟩
  unfold nextFreeOf at hl
  rw [hs] at hl
  exact hl

theorem Inv.allocateLoop {parent : Option Nat} (resource : Nat) {depth : Nat} : ∀ (rounds : Nat) (a : ScopeArena),
    Inv p a (parent.toList ++ held) → Enterable p a depth parent →
    (∀ free, Linked a.nextFreeOf a.freeHead free → free.length < rounds) →
    Allocated p a held parent resource (allocateLoop parent resource depth rounds a)
  | 0, a, h, henter, hrounds => by
    obtain ⟨free, hl, -⟩ := h.free
    exact absurd (hrounds free hl) (Nat.not_lt_zero _)
  | rounds + 1, a, h, henter, hrounds => by
    obtain ⟨free, hl, hfree⟩ := h.free
    unfold ScopeArena.allocateLoop
    cases hhead : a.freeHead with
    | none => exact ⟨h, .refl a⟩
    | some head =>
      rw [hhead] at hl
      obtain ⟨rest, rfl, hrest⟩ := hl.of_some
      obtain ⟨slot, hs, hzero⟩ := hfree head List.mem_cons_self
      have hlt : head < a.generations.length := by
        rw [h.generations]
        exact lt_of_slot hs
      have hg := List.getElem?_eq_getElem hlt
      simp only [hs, hg]
      split
      · have hself : (a.taken head a.generations[head] slot parent resource depth).slots[head]? =
            some { slot with resource, parent, depth, refs := 1 } := getElem?_set_self hs _
        refine ⟨h.taken henter hhead hs hg, parentOf_eq hself, resourceOf_eq hself, ?_, fun i hi =>
          getElem?_set_ne _ hi⟩
        · rintro ⟨s, hs', hr⟩
          rw [hs] at hs'
          cases hs'
          exact hr hzero
      · have hskip := Inv.allocateLoop resource rounds { a with freeHead := slot.nextFree }
          (h.skip hhead hs) henter fun free' hl' => ?_
        · revert hskip
          generalize ScopeArena.allocateLoop parent resource depth rounds _ = r
          obtain ⟨_ | id, a'⟩ := r
          · exact fun hskip => ⟨hskip.1, ⟨hskip.2.generations, hskip.2.memo, hskip.2.scopes⟩⟩
          · exact fun hskip => hskip
        · have hnext : a.nextFreeOf head = slot.nextFree := by
            unfold nextFreeOf
            rw [hs]
            rfl
          rw [hnext] at hrest
          have := hrounds (head :: rest) (by rw [hhead]; exact hl)
          rw [hl'.unique hrest]
          exact Nat.lt_of_succ_lt_succ this

theorem Inv.allocate {depth : Nat} (parent : Option Nat) (resource : Nat) (h : Inv p a (parent.toList ++ held))
    (henter : Enterable p a depth parent) : Allocated p a held parent resource (a.allocate parent resource depth) := by
  refine Inv.allocateLoop resource _ a h henter fun free hl => Nat.lt_succ_of_le (hl.length_le fun i hi => ?_)
  obtain ⟨free', hl', hfree⟩ := h.free
  rw [hl.unique hl'] at hi
  obtain ⟨slot, hs, -⟩ := hfree i hi
  exact lt_of_slot hs

/-! ## Entering -/

/-- The chains of these leases are what they were. -/
def Keeps (held : List Nat) (a a' : ScopeArena) : Prop :=
  ∀ id ∈ held, ∀ chain, a.HasChain id chain → a'.HasChain id chain

theorem SameScopes.keeps (h : SameScopes a a') : Keeps held a a' := fun _ _ _ hc => h.hasChain.2 hc

theorem Keeps.trans {a'' : ScopeArena} (h : Keeps held a a') (h' : Keeps held a' a'') : Keeps held a a'' :=
  fun id hid chain hc => h' id hid chain (h id hid chain hc)

theorem Keeps.mono {held' : List Nat} (h : Keeps held a a') (hsub : ∀ id ∈ held', id ∈ held) : Keeps held' a a' :=
  fun id hid => h id (hsub id hid)

/-- A chain is the slot's resource and the chain of its parent. -/
theorem HasChain.cons_inv (h : a.HasChain id chain) (hs : a.slots[id]? = some slot) :
    ∃ rest, chain = slot.resource :: rest ∧
      match slot.parent with | none => rest = [] | some parent => a.HasChain parent rest := by
  obtain ⟨_, hall, hc⟩ := h
  obtain ⟨ids, rfl, hl⟩ := hall.of_some
  rw [parentOf_eq hs] at hl
  cases chain with
  | nil => cases hc
  | cons r rest =>
    simp only [List.map_cons, List.cons.injEq, resourceOf_eq hs, Option.some.injEq] at hc
    obtain ⟨rfl, hc⟩ := hc
    refine ⟨rest, rfl, ?_⟩
    cases hp : slot.parent with
    | none =>
      rw [hp] at hl
      rw [hl.of_none] at hc
      exact List.map_eq_nil_iff.1 hc.symm
    | some parent =>
      rw [hp] at hl
      exact ⟨ids, hl, hc⟩

theorem HasChain.root {resource : Nat} (hp : a.parentOf id = none) (hr : a.resourceOf id = some resource) :
    a.HasChain id [resource] := by
  refine ⟨[id], .cons ?_, ?_⟩
  · rw [hp]
    exact .nil
  · simp [hr]

theorem HasChain.cons {parent resource : Nat} (h : a.HasChain parent chain) (hp : a.parentOf id = some parent)
    (hr : a.resourceOf id = some resource) : a.HasChain id (resource :: chain) := by
  obtain ⟨ids, hl, hc⟩ := h
  refine ⟨id :: ids, .cons ?_, ?_⟩
  · rw [hp]
    exact hl
  · simp [hr, hc]

/-- A new scope keeps the chains of all that were live. -/
theorem Inv.keeps_allocated {held' : List Nat} (h : Inv p a held) (hsub : ∀ i ∈ held', i ∈ held) (hnew : ¬a.Live id)
    (hkeep : ∀ i, i ≠ id → a'.slots[i]? = a.slots[i]?) : Keeps held' a a' := by
  intro i hi chain hc
  refine (h.hasChain_iff (h.live (hsub i hi)) fun j hj => hkeep j ?_).2 hc
  rintro rfl
  exact hnew hj

/-- What a call leaves that hands out a lease with this chain, or fails. -/
def Granted (p : ReferencePlan) (a : ScopeArena) (held chain : List Nat) : Except ScopeError Nat × ScopeArena → Prop
  | (.ok id, a') => Inv p a' (id :: held) ∧ a'.HasChain id chain ∧ Keeps held a a'
  | (.error _, a') => Inv p a' held ∧ Keeps held a a'

/-- **A scope of its own** has the chain of its resource. -/
theorem Inv.root (h : Inv p a held) (resource : Nat) : Granted p a held [resource] (a.root resource) := by
  have halloc := h.allocate none resource rfl
  revert halloc
  unfold ScopeArena.root
  generalize a.allocate none resource 1 = result
  obtain ⟨_ | id, a'⟩ := result
  · rintro ⟨hinv, hsame⟩
    exact ⟨hinv, hsame.keeps⟩
  · rintro ⟨hinv, hparent, hresource, hfresh, hslots⟩
    exact ⟨hinv, .root hparent hresource, h.keeps_allocated (fun i hi => hi) hfresh hslots⟩

/-- **Entering a resource**: the lease has the parent's chain with the resource, once, and all others keep theirs. -/
theorem Inv.enter {parent : Nat} (h : Inv p a held) (hid : parent ∈ held) (hc : a.HasChain parent chain)
    (resource : Nat) :
    Granted p a held (DynamicPlan.enterChain chain resource) (a.enter parent resource p.maxDynamicScopeDepth) := by
  obtain ⟨slot, hs, hr⟩ := h.live hid
  obtain ⟨rest, rfl, -⟩ := hc.cons_inv hs
  unfold ScopeArena.enter
  rw [slot_ok hs]
  by_cases hres : slot.resource = resource
  · have hstay : DynamicPlan.enterChain (slot.resource :: rest) resource = slot.resource :: rest :=
      if_pos (congrArg some hres)
    simp only [if_pos hres]
    cases hretain : a.retain parent with
    | error e => exact ⟨h, (SameScopes.refl a).keeps⟩
    | ok a' =>
      obtain ⟨hinv, hsame⟩ := h.retain hid hretain
      refine ⟨hinv, ?_, hsame.keeps⟩
      rw [hstay]
      exact hsame.hasChain.2 hc
  · have hnew : DynamicPlan.enterChain (slot.resource :: rest) resource = resource :: slot.resource :: rest :=
      if_neg fun heq => hres (Option.some.inj heq)
    simp only [if_neg hres]
    split
    · exact ⟨h, (SameScopes.refl a).keeps⟩
    split
    · exact ⟨h, (SameScopes.refl a).keeps⟩
    rename_i hdepth
    cases hretain : a.retain parent with
    | error e => exact ⟨h, (SameScopes.refl a).keeps⟩
    | ok a' =>
      obtain ⟨hinv, hsame⟩ := h.retain hid hretain
      obtain ⟨above, habove, heq⟩ := hsame.symm.find hs
      have henter : Enterable p a' (slot.depth + 1) (some parent) := by
        simp only [ScopeSlot.scope, Prod.mk.injEq] at heq
        exact ⟨above, habove, by rw [heq.2.2], Nat.not_lt.1 hdepth⟩
      have hinv : Inv p a' ((some parent).toList ++ held) := hinv
      have halloc := hinv.allocate _ resource henter
      revert halloc
      show Allocated p a' held (some parent) resource (a'.allocate (some parent) resource (slot.depth + 1)) →
        Granted p a held _ (match a'.allocate (some parent) resource (slot.depth + 1) with
          | (.ok lease, a) => (.ok lease, a)
          | (.error e, a) => (.error e, a.release parent))
      generalize a'.allocate (some parent) resource (slot.depth + 1) = result
      obtain ⟨_ | id, a''⟩ := result
      · rintro ⟨hinv', hsame'⟩
        obtain ⟨hrel, hsame''⟩ := Inv.release hinv'
        exact ⟨hrel, ((hsame.trans hsame').trans hsame'').keeps⟩
      · rintro ⟨hinv', hparent, hresource, hfresh, hslots⟩
        have hkeeps : Keeps (parent :: held) a' a'' := hinv.keeps_allocated (fun i hi => hi) hfresh hslots
        refine ⟨hinv', ?_, hsame.keeps.trans (hkeeps.mono fun i hi => List.mem_cons_of_mem _ hi)⟩
        rw [hnew]
        exact (hkeeps parent List.mem_cons_self _ (hsame.hasChain.2 hc)).cons hparent hresource

end ScopeArena
end MaskForge
