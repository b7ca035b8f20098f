import MaskForge.Structured.Cycles
/-!
# CycleShape — what lowering a component does to the node table

A table only grows, and only the members of the component are overwritten.  Every node made on the way applies branches
that leave the component, nodes made before it for the same component, or the node that accepts nothing; `Lowered` keeps
that, and `Shape` says what the members come down to.
-/
namespace MaskForge
open NodeTable

/-! ## Appending a node -/

namespace NodeTable
variable {env : LowerEnv} {t t' : NodeTable}

theorem node_of_append {fresh : List NodePlan} (h : t'.nodes = t.nodes ++ fresh) {u : Nat} (hu : u < t.nodes.length) :
    t'.node u = t.node u := by
  unfold node
  rw [h, List.getElem?_append_left hu]

theorem node_of_snoc {node : NodePlan} (h : t'.nodes = t.nodes ++ [node]) : t'.node t.nodes.length = node := by
  unfold NodeTable.node
  rw [h, List.getElem?_append_right (Nat.le_refl _)]
  simp

theorem append_ok {node : NodePlan} {k : Nat} (h : t.append env node = .ok (k, t')) :
    k = t.nodes.length ∧ t'.nodes = t.nodes ++ [node] ∧ t'.never = t.never := by
  unfold append at h
  split at h
  · cases h
  · obtain ⟨n, -, h⟩ := bind_ok h
    cases h
    exact ⟨rfl, rfl, rfl⟩

theorem ensureNever_ok {k : Nat} (h : t.ensureNever env = .ok (k, t')) :
    t'.never = some k ∧ ((t.never = some k ∧ t' = t) ∨
      (t.never = none ∧ k = t.nodes.length ∧ ∃ e, env.neverEngine = .ok e ∧ t'.nodes = t.nodes ++ [.regular e])) := by
  unfold ensureNever at h
  split at h
  · rename_i node hn
    cases h
    exact ⟨hn, .inl ⟨hn, rfl⟩⟩
  · rename_i hn
    obtain ⟨e, he, h⟩ := bind_ok h
    obtain ⟨n, -, h⟩ := bind_ok h
    obtain ⟨⟨k', t₁⟩, ha, h⟩ := bind_ok h
    obtain ⟨rfl, hnodes, -⟩ := append_ok ha
    cases h
    exact ⟨rfl, .inr ⟨hn, rfl, e, he, hnodes⟩⟩

theorem appendCombinator_ok {kind : CombinatorKind} {branches : List Nat} {k : Nat}
    (h : t.appendCombinator env kind branches = .ok (k, t')) :
    k = t.nodes.length ∧ t'.nodes = t.nodes ++ [.combinator ⟨kind, branches⟩] ∧ t'.never = t.never := by
  unfold appendCombinator at h
  obtain ⟨n, -, h⟩ := bind_ok h
  obtain ⟨rfl, hnodes, hnever⟩ := append_ok h
  exact ⟨rfl, hnodes, hnever⟩

/-! ## Overwriting the members -/

theorem link_never : ∀ (pairs : List (Nat × Nat)) (t : NodeTable), (t.link pairs).never = t.never
  | [], _ => rfl
  | _ :: rest, _ => link_never rest _

theorem link_length : ∀ (pairs : List (Nat × Nat)) (t : NodeTable), (t.link pairs).nodes.length = t.nodes.length
  | [], _ => rfl
  | (index, target) :: rest, t => by
    unfold link
    rw [link_length rest]
    exact List.length_set

theorem node_link_of_not_mem : ∀ (pairs : List (Nat × Nat)) (t : NodeTable) (u : Nat), u ∉ pairs.map Prod.fst →
    (t.link pairs).node u = t.node u
  | [], _, _, _ => rfl
  | (index, target) :: rest, t, u, hu => by
    simp only [List.map_cons, List.mem_cons, not_or] at hu
    unfold link
    rw [node_link_of_not_mem rest _ u hu.2]
    unfold node
    rw [List.getElem?_set_ne (Ne.symm hu.1)]

theorem node_link_of_mem : ∀ (pairs : List (Nat × Nat)) (t : NodeTable) (u k : Nat), (pairs.map Prod.fst).Nodup →
    (u, k) ∈ pairs → u < t.nodes.length → (t.link pairs).node u = .ref k
  | [], _, _, _, _, h, _ => by cases h
  | (index, target) :: rest, t, u, k, hnd, h, hu => by
    simp only [List.map_cons, List.nodup_cons] at hnd
    unfold link
    rcases List.mem_cons.1 h with h | h
    · cases h
      rw [node_link_of_not_mem rest _ _ hnd.1]
      unfold node
      simp [hu]
    · exact node_link_of_mem rest _ u k hnd.2 h (by simpa using hu)

end NodeTable

/-! ## The nodes a component is lowered to -/

/-- A branch of a member that leaves the component. -/
def External (t : NodeTable) (c : List Nat) (b : Nat) : Prop := ∃ u ∈ c, b ∈ t.children u ∧ b ∉ c

/-- What a node made for a component may apply: branches that leave it, nodes made for it earlier, or the node that
accepts nothing. -/
def Target (t : NodeTable) (c : List Nat) (below b : Nat) : Prop :=
  External t c b ∨ (t.nodes.length ≤ b ∧ b < below) ∨ t.never = some b

theorem Target.mono {t : NodeTable} {c : List Nat} {m m' b : Nat} (h : Target t c m b) (hm : m ≤ m') :
    Target t c m' b := by
  rcases h with h | h | h
  · exact .inl h
  · exact .inr (.inl ⟨h.1, Nat.lt_of_lt_of_le h.2 hm⟩)
  · exact .inr (.inr h)

def IsNever (env : LowerEnv) (node : NodePlan) : Prop := ∃ e, env.neverEngine = .ok e ∧ node = .regular e

/-- A node made during lowering. -/
def Synthetic (env : LowerEnv) (branch : Nat → Prop) (node : NodePlan) : Prop :=
  IsNever env node ∨ ∃ kind bs, kind ≠ CombinatorKind.exactlyOne ∧ node = .combinator ⟨kind, bs⟩ ∧ ∀ b ∈ bs, branch b

theorem Synthetic.children {env : LowerEnv} {branch : Nat → Prop} {node : NodePlan} (h : Synthetic env branch node) :
    ∀ b ∈ node.sameInstanceChildren, branch b := by
  rcases h with ⟨e, -, rfl⟩ | ⟨kind, bs, -, rfl, h⟩
  · intro b hb
    cases hb
  · exact h

/-- The table while a component is being lowered: nodes were appended, none overwritten. -/
structure Grown (env : LowerEnv) (c : List Nat) (t₀ t : NodeTable) : Prop where
  grow : ∃ fresh, t.nodes = t₀.nodes ++ fresh
  fresh : ∀ u, t₀.nodes.length ≤ u → u < t.nodes.length → Synthetic env (Target t₀ c u) (t.node u)
  never : ∀ k, t.never = some k →
    t₀.never = some k ∨ (t₀.nodes.length ≤ k ∧ k < t.nodes.length ∧ IsNever env (t.node k))
  keeps : ∀ k, t₀.never = some k → t.never = some k

namespace Grown
variable {env : LowerEnv} {c : List Nat} {t₀ t t' : NodeTable}

theorem refl : Grown env c t t :=
  ⟨⟨[], by simp⟩, fun u h h' => absurd h' (Nat.not_lt.2 h), fun _ h => .inl h, fun _ h => h⟩

theorem le (h : Grown env c t₀ t) : t₀.nodes.length ≤ t.nodes.length := by
  obtain ⟨fresh, hf⟩ := h.grow
  rw [hf, List.length_append]
  omega

theorem node_eq (h : Grown env c t₀ t) {u : Nat} (hu : u < t₀.nodes.length) : t.node u = t₀.node u := by
  obtain ⟨fresh, hf⟩ := h.grow
  exact node_of_append hf hu

/-- Appending a node that fits. -/
theorem snoc (h : Grown env c t₀ t) {node : NodePlan} (hn : t'.nodes = t.nodes ++ [node])
    (hnode : Synthetic env (Target t₀ c t.nodes.length) node)
    (hnever : t'.never = t.never ∨ (t.never = none ∧ t'.never = some t.nodes.length ∧ IsNever env node)) :
    Grown env c t₀ t' := by
  have hlen : t'.nodes.length = t.nodes.length + 1 := by
    rw [hn, List.length_append]
    rfl
  have hle := h.le
  refine ⟨?_, fun u hlo hhi => ?_, fun k hk => ?_, fun k hk => ?_⟩
  · obtain ⟨fresh, hf⟩ := h.grow
    exact ⟨fresh ++ [node], by rw [hn, hf, List.append_assoc]⟩
  · by_cases hu : u < t.nodes.length
    · rw [node_of_append hn hu]
      exact h.fresh u hlo hu
    · obtain rfl : u = t.nodes.length := by omega
      rw [node_of_snoc hn]
      exact hnode
  · rcases hnever with hnever | ⟨-, hsome, hregular⟩
    · rw [hnever] at hk
      rcases h.never k hk with h' | ⟨h1, h2, h3⟩
      · exact .inl h'
      · exact .inr ⟨h1, by omega, by rwa [node_of_append hn h2]⟩
    · rw [hsome] at hk
      cases hk
      exact .inr ⟨hle, by omega, by rwa [node_of_snoc hn]⟩
  · rcases hnever with hnever | ⟨hnone, -⟩
    · rw [hnever]
      exact h.keeps k hk
    · rw [h.keeps k hk] at hnone
      cases hnone

theorem ensureNever {k : Nat} (h : Grown env c t₀ t) (ht : t.ensureNever env = .ok (k, t')) :
    Grown env c t₀ t' ∧ t'.never = some k := by
  obtain ⟨hsome, ⟨-, rfl⟩ | ⟨hnone, rfl, e, he, hnodes⟩⟩ := ensureNever_ok ht
  · exact ⟨h, hsome⟩
  · exact ⟨h.snoc hnodes (.inl ⟨e, he, rfl⟩) (.inr ⟨hnone, hsome, e, he, rfl⟩), hsome⟩

/-- The node that accepts nothing may be applied. -/
theorem target_of_never {k : Nat} (h : Grown env c t₀ t) (hk : t.never = some k) : Target t₀ c t.nodes.length k := by
  rcases h.never k hk with h' | ⟨h1, h2, -⟩
  · exact .inr (.inr h')
  · exact .inr (.inl ⟨h1, h2⟩)

theorem appendCombinator {kind : CombinatorKind} {branches : List Nat} {k : Nat} (h : Grown env c t₀ t)
    (ht : t.appendCombinator env kind branches = .ok (k, t')) (hkind : kind ≠ .exactlyOne)
    (hb : ∀ b ∈ branches, Target t₀ c t.nodes.length b) :
    Grown env c t₀ t' ∧ k = t.nodes.length ∧ t'.nodes.length = k + 1 ∧ t'.node k = .combinator ⟨kind, branches⟩ := by
  obtain ⟨rfl, hnodes, hnever⟩ := appendCombinator_ok ht
  refine ⟨h.snoc hnodes (.inr ⟨kind, branches, hkind, rfl, hb⟩) (.inl hnever), rfl, ?_, node_of_snoc hnodes⟩
  rw [hnodes, List.length_append]
  rfl

end Grown

/-! ## One component -/

/-- What the scan knows of a component it does not refuse. -/
structure Scanned (t : NodeTable) (c : List Nat) (hasUnion hasIntersection : Bool) : Prop where
  node : ∀ u ∈ c, ∃ flags, scanNode (t.node u) = .ok flags ∧
    (flags.1 = true → hasUnion = true) ∧ (flags.2 = true → hasIntersection = true)
  union : hasUnion = true → ∃ u ∈ c, ∃ x, scanNode (t.node u) = .ok (true, x)
  intersection : hasIntersection = true → ∃ u ∈ c, ∃ x, scanNode (t.node u) = .ok (x, true)

theorem scanComponent_ok {t : NodeTable} : ∀ {c : List Nat} {hasUnion hasIntersection : Bool},
    scanComponent t c = .ok (hasUnion, hasIntersection) → Scanned t c hasUnion hasIntersection
  | [], _, _, h => by
    cases h
    exact ⟨fun _ hu => absurd hu List.not_mem_nil, fun h => (by cases h), fun h => (by cases h)⟩
  | index :: rest, _, _, h => by
    unfold scanComponent at h
    obtain ⟨⟨isUnion, isIntersection⟩, hnode, h⟩ := bind_ok h
    obtain ⟨⟨restUnion, restIntersection⟩, hrest, h⟩ := bind_ok h
    cases h
    have ih := scanComponent_ok hrest
    refine ⟨fun u hu => ?_, fun hu => ?_, fun hi => ?_⟩
    · rcases List.mem_cons.1 hu with rfl | hu
      · exact ⟨_, hnode, Bool.or_eq_true_iff.2 ∘ .inl, Bool.or_eq_true_iff.2 ∘ .inl⟩
      · obtain ⟨flags, h1, h2, h3⟩ := ih.node u hu
        exact ⟨flags, h1, Bool.or_eq_true_iff.2 ∘ .inr ∘ h2, Bool.or_eq_true_iff.2 ∘ .inr ∘ h3⟩
    · cases isUnion with
      | true => exact ⟨index, List.mem_cons_self, isIntersection, hnode⟩
      | false =>
        obtain ⟨u, hmem, hx⟩ := ih.union (by simpa using hu)
        exact ⟨u, List.mem_cons_of_mem _ hmem, hx⟩
    · cases isIntersection with
      | true => exact ⟨index, List.mem_cons_self, isUnion, hnode⟩
      | false =>
        obtain ⟨u, hmem, hx⟩ := ih.intersection (by simpa using hi)
        exact ⟨u, List.mem_cons_of_mem _ hmem, hx⟩

theorem mem_dedupSorted : ∀ (l : List Nat) (x : Nat), x ∈ dedupSorted l ↔ x ∈ l
  | [], _ => Iff.rfl
  | [_], _ => Iff.rfl
  | y :: z :: rest, x => by
    unfold dedupSorted
    split
    · rename_i h
      rw [mem_dedupSorted (z :: rest) x, h]
      simp
    · rw [List.mem_cons, mem_dedupSorted (z :: rest) x, ← List.mem_cons]

theorem mem_externalBranches (t : NodeTable) (c : List Nat) (b : Nat) :
    b ∈ externalBranches t c ↔ External t c b := by
  unfold externalBranches External
  rw [mem_dedupSorted, List.mem_insertionSort, List.mem_flatMap]
  simp only [List.mem_filter, decide_eq_true_eq]

/-- The component a table was lowered on, the table it started from and the one it ended at. -/
structure Lowered (env : LowerEnv) (c : List Nat) (t t' : NodeTable) : Prop where
  le : t.nodes.length ≤ t'.nodes.length
  frame : ∀ u, u < t.nodes.length → u ∉ c → t'.node u = t.node u
  linked : ∀ u ∈ c, ∃ k, t'.node u = .ref k ∧ Target t c t'.nodes.length k
  fresh : ∀ u, t.nodes.length ≤ u → u < t'.nodes.length → Synthetic env (Target t c u) (t'.node u)
  never : ∀ k, t'.never = some k →
    t.never = some k ∨ (t.nodes.length ≤ k ∧ k < t'.nodes.length ∧ IsNever env (t'.node k))
  keeps : ∀ k, t.never = some k → t'.never = some k

/-- Growing a table and then turning the members into references. -/
theorem Grown.link {env : LowerEnv} {c : List Nat} {t₀ t : NodeTable} (h : Grown env c t₀ t) {pairs : List (Nat × Nat)}
    (hfst : pairs.map Prod.fst = c) (hnd : c.Nodup) (hc : ∀ u ∈ c, u < t₀.nodes.length)
    (hsnd : ∀ p ∈ pairs, Target t₀ c t.nodes.length p.2) : Lowered env c t₀ (t.link pairs) := by
  have hlen := link_length pairs t
  have houtside : ∀ u, t₀.nodes.length ≤ u → (t.link pairs).node u = t.node u := by
    intro u hu
    apply node_link_of_not_mem
    rw [hfst]
    exact fun hmem => Nat.not_lt.2 hu (hc u hmem)
  refine ⟨by rw [hlen]; exact h.le, fun u hu hmem => ?_, fun u hu => ?_, fun u hlo hhi => ?_,
    fun k hk => ?_, fun k hk => ?_⟩
  · rw [node_link_of_not_mem _ _ _ (by rwa [hfst])]
    exact h.node_eq hu
  · rw [← hfst] at hu
    obtain ⟨⟨u', k⟩, hp, rfl⟩ := List.mem_map.1 hu
    have hu' : u' < t.nodes.length := by
      have := hc u' (hfst ▸ List.mem_map.2 ⟨(u', k), hp, rfl⟩)
      have := h.le
      omega
    refine ⟨k, node_link_of_mem pairs t u' k (hfst ▸ hnd) hp hu', ?_⟩
    rw [hlen]
    exact hsnd (u', k) hp
  · rw [houtside u hlo]
    exact h.fresh u hlo (by omega)
  · rw [link_never] at hk
    rcases h.never k hk with h' | ⟨h1, h2, h3⟩
    · exact .inl h'
    · exact .inr ⟨h1, by omega, by rwa [houtside k h1]⟩
  · rw [link_never]
    exact h.keeps k hk

/-! ## What the members come down to -/

/-- A member's node of one round: its only branch's, or a combinator of its branches' nodes of the round before. -/
def Unrolled (t₀ t : NodeTable) (ρ : Nat → Nat) (e : PositiveCycleExpr) (m : Nat) : Prop :=
  (∃ b, e.children = [b] ∧ m = ρ b) ∨
    ∃ kind, e.kind = some kind ∧ t₀.nodes.length ≤ m ∧ m < t.nodes.length ∧
      t.node m = .combinator ⟨kind, e.children.map ρ⟩

/-- The three ways a component comes out. -/
inductive Shape (c : List Nat) (t t' : NodeTable) : Prop where
  | never (k : Nat) (hnever : t'.never = some k) (hunion : ∀ u ∈ c, ∀ x, scanNode (t.node u) ≠ .ok (true, x))
      (hlink : ∀ u ∈ c, t'.node u = .ref k)
  | union (k : Nat) (hunion : ∃ u ∈ c, ∃ x, scanNode (t.node u) = .ok (true, x))
      (hinter : ∀ u ∈ c, ∀ x, scanNode (t.node u) ≠ .ok (x, true))
      (htarget : (externalBranches t c = [] ∧ t'.never = some k) ∨ externalBranches t c = [k] ∨
        (t.nodes.length ≤ k ∧ t'.node k = .combinator ⟨.any, externalBranches t c⟩))
      (hlink : ∀ u ∈ c, t'.node u = .ref k)
  | mixed (bottom : Nat) (exprs : List PositiveCycleExpr) (stage : Nat → List Nat) (hnever : t'.never = some bottom)
      (hunion : ∃ u ∈ c, ∃ x, scanNode (t.node u) = .ok (true, x))
      (hinter : ∃ u ∈ c, ∃ x, scanNode (t.node u) = .ok (x, true))
      (hexprs : List.Forall₂ (fun u e => positiveExpr t u = .ok e) c exprs)
      (hzero : stage 0 = List.replicate c.length bottom)
      (hstep : ∀ k, k < c.length → List.Forall₂ (Unrolled t t' (resolvedChild c (stage k))) exprs (stage (k + 1)))
      (hlink : ∀ u k, (u, k) ∈ c.zip (stage c.length) → t'.node u = .ref k)

section Rounds
variable {env : LowerEnv} {c : List Nat} {t₀ : NodeTable}

theorem resolvedChild_target {previous : List Nat} {below b : Nat} (hlen : previous.length = c.length)
    (hprev : ∀ m ∈ previous, Target t₀ c below m) (hb : b ∈ c ∨ External t₀ c b) :
    Target t₀ c below (resolvedChild c previous b) := by
  unfold resolvedChild
  cases hl : (c.zip previous).lookup b with
  | some m =>
    obtain ⟨l₁, l₂, h, -⟩ := List.lookup_eq_some_iff.1 hl
    have hmem : (b, m) ∈ c.zip previous := by
      rw [h]
      exact List.mem_append_right _ List.mem_cons_self
    exact hprev m (List.of_mem_zip hmem).2
  | none =>
    refine .inl (hb.resolve_left fun hmem => ?_)
    have hfst : b ∈ (c.zip previous).map Prod.fst := by
      rw [List.map_fst_zip (by omega)]
      exact hmem
    obtain ⟨⟨b', m⟩, hp, rfl⟩ := List.mem_map.1 hfst
    have := List.lookup_eq_none_iff.1 hl (b', m) hp
    simp at this

theorem Unrolled.grow {t t' : NodeTable} {ρ : Nat → Nat} {e : PositiveCycleExpr} {m : Nat}
    (h : Unrolled t₀ t ρ e m) (hle : t.nodes.length ≤ t'.nodes.length)
    (hnode : ∀ u, t₀.nodes.length ≤ u → u < t.nodes.length → t'.node u = t.node u) : Unrolled t₀ t' ρ e m := by
  rcases h with h | ⟨kind, hk, hlo, hhi, hm⟩
  · exact .inl h
  · exact .inr ⟨kind, hk, hlo, Nat.lt_of_lt_of_le hhi hle, by rw [hnode m hlo hhi, hm]⟩

/-- Branches a member may have, and the kinds. -/
def ExprOk (t₀ : NodeTable) (c : List Nat) (e : PositiveCycleExpr) : Prop :=
  e.kind ≠ some .exactlyOne ∧ ∀ b ∈ e.children, b ∈ c ∨ External t₀ c b

/-- **One round**: the table grows, and every member gets its node. -/
theorem round_ok {previous : List Nat} (hlen : previous.length = c.length) : ∀ {exprs : List PositiveCycleExpr}
    {t t' : NodeTable} {current : List Nat}, round env c previous exprs t = .ok (current, t') → Grown env c t₀ t →
      (∀ e ∈ exprs, ExprOk t₀ c e) → (∀ m ∈ previous, Target t₀ c t.nodes.length m) →
      Grown env c t₀ t' ∧ (∃ fresh, t'.nodes = t.nodes ++ fresh) ∧ t'.never = t.never ∧
        (∀ m ∈ current, Target t₀ c t'.nodes.length m) ∧
        List.Forall₂ (Unrolled t₀ t' (resolvedChild c previous)) exprs current
  | [], t, _, _, h, hg, _, _ => by
    cases h
    exact ⟨hg, ⟨[], by simp⟩, rfl, fun _ hm => absurd hm List.not_mem_nil, .nil⟩
  | e :: rest, t, t', _, h, hg, hexprs, hprev => by
    unfold round at h
    obtain ⟨⟨node, t₁⟩, hnode, h⟩ := bind_ok h
    obtain ⟨⟨current, t₂⟩, hround, h⟩ := bind_ok h
    cases h
    obtain ⟨hkind, hchildren⟩ := hexprs e List.mem_cons_self
    have hbranches : ∀ b ∈ e.children.map (resolvedChild c previous), Target t₀ c t.nodes.length b := by
      intro b hb
      obtain ⟨b', hb', rfl⟩ := List.mem_map.1 hb
      exact resolvedChild_target hlen hprev (hchildren b' hb')
    -- The node of this member: an old one, or one appended to the table.
    have hone : Grown env c t₀ t₁ ∧ (∃ fresh, t₁.nodes = t.nodes ++ fresh) ∧ t₁.never = t.never ∧
        Target t₀ c t₁.nodes.length node ∧ Unrolled t₀ t₁ (resolvedChild c previous) e node := by
      unfold roundNode at hnode
      split at hnode
      · rename_i only hmap
        cases hnode
        obtain ⟨b, hb, rfl⟩ := List.map_eq_singleton_iff.1 hmap
        exact ⟨hg, ⟨[], by simp⟩, rfl, hbranches _ (by rw [hmap]; exact List.mem_singleton_self _), .inl ⟨b, hb, rfl⟩⟩
      · rename_i kind hk _
        obtain ⟨hg₁, rfl, hlen₁, hm⟩ := hg.appendCombinator hnode (fun hx => hkind (by rw [hk, hx])) hbranches
        have hle := hg.le
        obtain ⟨-, hnodes, hnever⟩ := appendCombinator_ok hnode
        exact ⟨hg₁, ⟨_, hnodes⟩, hnever, .inr (.inl ⟨hle, by omega⟩), .inr ⟨kind, hk, hle, by omega, hm⟩⟩
      · cases hnode
    obtain ⟨hg₁, ⟨fresh₁, hf₁⟩, hn₁, htarget, hunrolled⟩ := hone
    have hle₁ : t.nodes.length ≤ t₁.nodes.length := by
      rw [hf₁, List.length_append]
      omega
    obtain ⟨hg₂, ⟨fresh₂, hf₂⟩, hn₂, htargets, hrest⟩ := round_ok hlen hround hg₁
      (fun e' he' => hexprs e' (List.mem_cons_of_mem _ he')) (fun m hm => (hprev m hm).mono hle₁)
    have hle₂ : t₁.nodes.length ≤ t'.nodes.length := by
      rw [hf₂, List.length_append]
      omega
    refine ⟨hg₂, ⟨fresh₁ ++ fresh₂, by rw [hf₂, hf₁, List.append_assoc]⟩, hn₂.trans hn₁, fun m hm => ?_, .cons ?_ hrest⟩
    · rcases List.mem_cons.1 hm with rfl | hm
      · exact htarget.mono hle₂
      · exact htargets m hm
    · exact hunrolled.grow hle₂ (fun u _ hu => node_of_append hf₂ hu)

/-- **All the rounds**, from the nodes they start with. -/
theorem rounds_ok {exprs : List PositiveCycleExpr} (hlen : exprs.length = c.length)
    (hexprs : ∀ e ∈ exprs, ExprOk t₀ c e) : ∀ {k : Nat} {previous final : List Nat} {t t' : NodeTable},
    rounds env c exprs k previous t = .ok (final, t') → previous.length = c.length → Grown env c t₀ t →
      (∀ m ∈ previous, Target t₀ c t.nodes.length m) →
      Grown env c t₀ t' ∧ t'.never = t.never ∧ (∃ fresh, t'.nodes = t.nodes ++ fresh) ∧ final.length = c.length ∧
        (∀ m ∈ final, Target t₀ c t'.nodes.length m) ∧
        ∃ stage : Nat → List Nat, stage 0 = previous ∧ stage k = final ∧
          ∀ j, j < k → List.Forall₂ (Unrolled t₀ t' (resolvedChild c (stage j))) exprs (stage (j + 1))
  | 0, previous, _, _, _, h, hprev, hg, htargets => by
    cases h
    exact ⟨hg, rfl, ⟨[], by simp⟩, hprev, htargets, fun _ => previous, rfl, rfl, fun _ hj =>
      absurd hj (Nat.not_lt_zero _)⟩
  | k + 1, previous, final, t, t', h, hprev, hg, htargets => by
    unfold rounds at h
    obtain ⟨⟨current, t₁⟩, hround, h⟩ := bind_ok h
    obtain ⟨hg₁, ⟨fresh₁, hf₁⟩, hn₁, htargets₁, hcurrent⟩ := round_ok hprev hround hg hexprs htargets
    have hlen₁ : current.length = c.length := by rw [← hcurrent.length_eq, hlen]
    obtain ⟨hg₂, hn₂, ⟨fresh₂, hf₂⟩, hfinal, htargets₂, stage, h0, hk, hstep⟩ :=
      rounds_ok hlen hexprs h hlen₁ hg₁ htargets₁
    have hle₂ : t₁.nodes.length ≤ t'.nodes.length := by
      rw [hf₂, List.length_append]
      omega
    refine ⟨hg₂, hn₂.trans hn₁, ⟨fresh₁ ++ fresh₂, by rw [hf₂, hf₁, List.append_assoc]⟩, hfinal, htargets₂,
      fun j => Nat.casesOn j previous stage, rfl, hk, fun j hj => ?_⟩
    cases j with
    | zero =>
      show List.Forall₂ (Unrolled t₀ t' (resolvedChild c previous)) exprs (stage 0)
      rw [h0]
      exact hcurrent.imp fun e m hu => hu.grow hle₂ (fun u _ hu => node_of_append hf₂ hu)
    | succ j => exact hstep j (by omega)

end Rounds

theorem mapM_ok {ε α β : Type} {f : α → Except ε β} : ∀ {l : List α} {l' : List β}, l.mapM f = .ok l' →
    List.Forall₂ (fun a b => f a = .ok b) l l'
  | [], _, h => by
    cases h
    exact .nil
  | a :: l, _, h => by
    rw [List.mapM_cons] at h
    obtain ⟨b, hb, h⟩ := bind_ok h
    obtain ⟨bs, hbs, h⟩ := bind_ok h
    cases h
    exact .cons hb (mapM_ok hbs)

/-- The expression of a member is its own operator and branches. -/
theorem positiveExpr_ok {t : NodeTable} {u : Nat} {e : PositiveCycleExpr} (h : positiveExpr t u = .ok e) :
    e.kind ≠ some .exactlyOne ∧ e.children = t.children u ∧
      ((e.kind = none ∧ ∃ b, e.children = [b]) ∨ ∃ kind, e.kind = some kind ∧
        t.node u = .combinator ⟨kind, e.children⟩) := by
  unfold positiveExpr at h
  unfold NodeTable.children
  split at h
  all_goals cases h
  all_goals rename_i hn; rw [hn]
  · exact ⟨nofun, rfl, .inl ⟨rfl, _, rfl⟩⟩
  · exact ⟨nofun, rfl, .inl ⟨rfl, _, rfl⟩⟩
  · exact ⟨nofun, rfl, .inr ⟨_, rfl, rfl⟩⟩
  · exact ⟨nofun, rfl, .inr ⟨_, rfl, rfl⟩⟩

section Component
variable {env : LowerEnv} {c : List Nat} {t t' : NodeTable}

theorem unionTarget_ok {k : Nat} (h : unionTarget env c t = .ok (k, t')) :
    Grown env c t t' ∧ Target t c t'.nodes.length k ∧
      ((externalBranches t c = [] ∧ t'.never = some k) ∨ externalBranches t c = [k] ∨
        (t.nodes.length ≤ k ∧ t'.node k = .combinator ⟨.any, externalBranches t c⟩)) := by
  unfold unionTarget at h
  split at h
  · rename_i hext
    obtain ⟨hg, hsome⟩ := Grown.refl.ensureNever h
    exact ⟨hg, hg.target_of_never hsome, .inl ⟨hext, hsome⟩⟩
  · rename_i only hext
    cases h
    have hmem : k ∈ externalBranches t c := by
      rw [hext]
      exact List.mem_singleton_self _
    exact ⟨Grown.refl, .inl ((mem_externalBranches t c k).1 hmem), .inr (.inl hext)⟩
  · obtain ⟨hg, rfl, hlen, hnode⟩ := Grown.refl.appendCombinator h (by decide)
      (fun b hb => .inl ((mem_externalBranches t c b).1 hb))
    exact ⟨hg, .inr (.inl ⟨Nat.le_refl _, by omega⟩), .inr (.inr ⟨Nat.le_refl _, hnode⟩)⟩

theorem mem_map_pair {c : List Nat} {k : Nat} {p : Nat × Nat} (h : p ∈ c.map (fun u => (u, k))) : p.2 = k := by
  obtain ⟨u, -, rfl⟩ := List.mem_map.1 h
  rfl

theorem lowerMixedPositiveComponent_ok (h : lowerMixedPositiveComponent env c t = .ok t') (hnd : c.Nodup)
    (hc : ∀ u ∈ c, u < t.nodes.length) (hunion : ∃ u ∈ c, ∃ x, scanNode (t.node u) = .ok (true, x))
    (hinter : ∃ u ∈ c, ∃ x, scanNode (t.node u) = .ok (x, true)) : Lowered env c t t' ∧ Shape c t t' := by
  unfold lowerMixedPositiveComponent at h
  obtain ⟨⟨bottom, t₁⟩, hnever, h⟩ := bind_ok h
  obtain ⟨exprs, hexprs, h⟩ := bind_ok h
  obtain ⟨⟨final, t₂⟩, hrounds, h⟩ := bind_ok h
  cases h
  obtain ⟨hg₁, hsome⟩ := Grown.ensureNever (c := c) Grown.refl hnever
  -- Members were not touched yet, so their expressions are those of the table the component came with.
  have hforall : List.Forall₂ (fun u e => positiveExpr t u = .ok e) c exprs := by
    refine List.forall₂_iff_get.2 ⟨(mapM_ok hexprs).length_eq, fun i hi hi' => ?_⟩
    have := (List.forall₂_iff_get.1 (mapM_ok hexprs)).2 i hi hi'
    unfold positiveExpr at this ⊢
    rwa [hg₁.node_eq (hc _ (List.get_mem _ _))] at this
  have hexprOk : ∀ e ∈ exprs, ExprOk t c e := by
    intro e he
    obtain ⟨i, hi, rfl⟩ := List.getElem_of_mem he
    have hlen := hforall.length_eq
    obtain ⟨hkind, hchildren, -⟩ := positiveExpr_ok ((List.forall₂_iff_get.1 hforall).2 i (by omega) hi)
    refine ⟨hkind, fun b hb => ?_⟩
    by_cases hmem : b ∈ c
    · exact .inl hmem
    · refine .inr ⟨c.get ⟨i, by omega⟩, List.get_mem _ _, ?_, hmem⟩
      rw [← hchildren]
      exact hb
  obtain ⟨hg₂, hn₂, -, hlen, htargets, stage, h0, hlast, hstep⟩ := rounds_ok hforall.length_eq.symm hexprOk
    hrounds List.length_replicate hg₁ (fun m hm => by
      rw [List.eq_of_mem_replicate hm]
      exact hg₁.target_of_never hsome)
  have hfst : (c.zip final).map Prod.fst = c := List.map_fst_zip (by omega)
  have hlow := hg₂.link hfst hnd hc (fun p hp => htargets p.2 (List.of_mem_zip hp).2)
  refine ⟨hlow, .mixed bottom exprs stage ?_ hunion hinter hforall h0 (fun k hk => ?_) (fun u k hp => ?_)⟩
  · rw [link_never, hn₂, hsome]
  · refine (hstep k hk).imp fun e m hu => hu.grow (Nat.le_of_eq (link_length _ _).symm) fun u hu _ => ?_
    apply node_link_of_not_mem
    rw [hfst]
    exact fun hmem => Nat.not_lt.2 hu (hc u hmem)
  · rw [hlast] at hp
    have hu := hc u (List.of_mem_zip hp).1
    have := hg₂.le
    exact node_link_of_mem _ _ u k (hfst.symm ▸ hnd) hp (by omega)

/-- **Lowering a component**: the members become references, and to what. -/
theorem lowerPositiveComponent_ok (h : lowerPositiveComponent env c t = .ok t') (hnd : c.Nodup)
    (hc : ∀ u ∈ c, u < t.nodes.length) :
    (Lowered env c t t' ∧ Shape c t t') ∧ ∀ u ∈ c, ∃ flags, scanNode (t.node u) = .ok flags := by
  unfold lowerPositiveComponent at h
  obtain ⟨⟨hasUnion, hasIntersection⟩, hscan, h⟩ := bind_ok h
  have hs := scanComponent_ok hscan
  refine ⟨?_, fun u hu => (hs.node u hu).imp fun _ hf => hf.1⟩
  dsimp only at h
  split at h
  · rename_i hboth
    simp only [Bool.and_eq_true] at hboth
    exact lowerMixedPositiveComponent_ok h hnd hc (hs.union hboth.1) (hs.intersection hboth.2)
  · rename_i hboth
    have hfst : ∀ k : Nat, (c.map (fun u => (u, k))).map Prod.fst = c := fun k => by simp [Function.comp_def]
    have hlink : ∀ {s : NodeTable} {k : Nat}, Grown env c t s → ∀ u ∈ c,
        (s.link (c.map (fun u => (u, k)))).node u = .ref k := by
      intro s k hg u hu
      have := hc u hu
      have := hg.le
      exact node_link_of_mem _ _ u k ((hfst k).symm ▸ hnd) (List.mem_map.2 ⟨u, hu, rfl⟩) (by omega)
    cases hasUnion with
    | true =>
      obtain ⟨⟨k, t₁⟩, htarget, h⟩ := bind_ok h
      cases h
      obtain ⟨hg, hk, hshape⟩ := unionTarget_ok htarget
      refine ⟨hg.link (hfst k) hnd hc (fun p hp => mem_map_pair hp ▸ hk), .union k (hs.union rfl)
        (fun u hu x hx => ?_) ?_ (hlink hg)⟩
      · obtain ⟨flags, hf, -, hi⟩ := hs.node u hu
        rw [hf] at hx
        cases hx
        simp [hi rfl] at hboth
      · rcases hshape with ⟨hext, hnever⟩ | hext | ⟨hlo, hnode⟩
        · exact .inl ⟨hext, by rw [link_never, hnever]⟩
        · exact .inr (.inl hext)
        · refine .inr (.inr ⟨hlo, ?_⟩)
          rw [node_link_of_not_mem _ _ _ (by rw [hfst]; exact fun hmem => Nat.not_lt.2 hlo (hc k hmem)), hnode]
    | false =>
      obtain ⟨⟨k, t₁⟩, htarget, h⟩ := bind_ok h
      cases h
      obtain ⟨hg, hsome⟩ := Grown.ensureNever (c := c) Grown.refl htarget
      refine ⟨hg.link (hfst k) hnd hc (fun p hp => mem_map_pair hp ▸ hg.target_of_never hsome), .never k ?_
        (fun u hu x hx => ?_) (hlink hg)⟩
      · rw [link_never, hsome]
      · obtain ⟨flags, hf, hunion, -⟩ := hs.node u hu
        rw [hf] at hx
        cases hx
        cases hunion rfl

end Component
end MaskForge
