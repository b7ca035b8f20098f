import MaskForge.Lib.Kleene
import MaskForge.Structured.CycleRun
import MaskForge.Structured.Meaning
/-!
# CycleMeaning — lowering a component keeps its least solution

The values of the nodes outside a component determine the least solution inside.  A component without a union
accepts nothing; one without an intersection reports what the branches that leave it report, since every member
reaches every other; one with both is a monotone system of truth values, and as many rounds from nothing as there
are members solve it.

What this needs of a component is `Faithful`: its dynamic references can resolve to nothing but their initial targets,
its members belong to one resource if a union passes scopes on, and unions and intersections are mixed only where no
locations are reported.
-/
namespace MaskForge
open NodeTable Relation

/-- What lowering needs of a cyclic component; `L` is the type of the locations that are reported. -/
structure Faithful (L : Type) (d : DynamicPlan) (t : NodeTable) (C : Nat → Prop) : Prop where
  frozen : ∀ u, C u → ∀ initialTarget anchor, t.node u = .dynamicRef initialTarget anchor →
    ∀ r target, d.dynamicTarget anchor r = some target → target = initialTarget
  resource : d.enabled = true → (∃ u, C u ∧ ∃ bs, t.node u = .combinator ⟨.any, bs⟩) →
    ∀ u, C u → ∀ w, C w → d.nodeResource u = d.nodeResource w
  unmixed : (∃ u, C u ∧ ∃ bs, t.node u = .combinator ⟨.any, bs⟩) →
  (∃ u, C u ∧ ∃ bs, t.node u = .combinator ⟨.all, bs⟩) →
    IsEmpty L

/-- Every member applies a member, and every member comes to every other through members. -/
structure Knotted (t : NodeTable) (c : List Nat) : Prop where
  child : ∀ u ∈ c, ∃ w ∈ c, w ∈ t.children u
  inside : ∀ u ∈ c, ∀ w ∈ c, ReflTransGen (fun a b => a ∈ c ∧ b ∈ c ∧ b ∈ t.children a) u w

/-! ## Reading a member -/

theorem DynamicPlan.resolve_frozen {d : DynamicPlan} {initialTarget anchor : Nat}
    (h : ∀ r target, d.dynamicTarget anchor r = some target → target = initialTarget) (s : DynamicPlan.Scope) :
    d.resolve initialTarget anchor s = initialTarget := by
  unfold DynamicPlan.resolve
  cases hs : s.findSome? (d.dynamicTarget anchor) with
  | none => rfl
  | some target =>
    obtain ⟨r, -, hr⟩ := List.exists_of_findSome?_eq_some hs
    exact h r target hr

theorem DynamicPlan.resolve_target (d : DynamicPlan) (initialTarget anchor : Nat) (s : DynamicPlan.Scope) :
    d.resolve initialTarget anchor s = initialTarget ∨ ∃ b ∈ d.bindings, d.resolve initialTarget anchor s =
    b.target := by
  unfold DynamicPlan.resolve
  cases hs : s.findSome? (d.dynamicTarget anchor) with
  | none => exact .inl rfl
  | some target =>
    obtain ⟨r, -, hr⟩ := List.exists_of_findSome?_eq_some hs
    unfold DynamicPlan.dynamicTarget at hr
    obtain ⟨name, -, hr⟩ := Option.bind_eq_some_iff.1 hr
    obtain ⟨b, hb, rfl⟩ := Option.map_eq_some_iff.1 hr
    exact .inr ⟨b, List.mem_of_find?_eq_some hb, rfl⟩

/-- How the operators a cycle may go through combine their branches. -/
inductive Combines (node : NodePlan) : Bool × Bool → Prop where
  | single (b : Nat) (hchildren : node.sameInstanceChildren = [b]) : Combines node (false, false)
  | any (bs : List Nat) (hnode : node = .combinator ⟨.any, bs⟩) : Combines node (true, false)
  | all (bs : List Nat) (hnode : node = .combinator ⟨.all, bs⟩) : Combines node (false, true)

theorem combines_of_scanNode {node : NodePlan} {flags : Bool × Bool} (h : scanNode node = .ok flags) :
    Combines node flags := by
  unfold scanNode at h
  split at h
  all_goals cases h
  · exact .single _ rfl
  · exact .single _ rfl
  · exact .any _ rfl
  · exact .all _ rfl

theorem any_of_scanNode {node : NodePlan} {x : Bool} (h : scanNode node = .ok (true, x)) :
    ∃ bs, node = .combinator ⟨.any, bs⟩ := by
  cases combines_of_scanNode h with
  | any bs hnode => exact ⟨bs, hnode⟩

theorem all_of_scanNode {node : NodePlan} {x : Bool} (h : scanNode node = .ok (x, true)) :
    ∃ bs, node = .combinator ⟨.all, bs⟩ := by
  cases combines_of_scanNode h with
  | all bs hnode => exact ⟨bs, hnode⟩

theorem positive_of_scanNode {node : NodePlan} {flags : Bool × Bool} (h : scanNode node = .ok flags) :
    Positive node := by
  unfold scanNode at h
  split at h
  all_goals first | cases h; done | trivial

section
variable {V L : Type} {d : DynamicPlan} {R : Reading V L d}

/-- A member with one branch reports what the branch reports. -/
theorem apply_single {t : NodeTable} {c : List Nat} {u b : Nat} (hf : Faithful L d t (· ∈ c)) (hu : u ∈ c)
    (hscan : scanNode (t.node u) = .ok (false, false)) (hb : t.children u = [b]) (E : Outcomes V L d) (v : V)
    (s : d.Rooted) : R.apply (t.node u) E v s = E v b s := by
  unfold NodeTable.children at hb
  have hfrozen := hf.frozen u hu
  generalize t.node u = node at *
  unfold scanNode at hscan
  split at hscan
  all_goals cases hscan
  · cases hb
    rfl
  · rename_i anchor
    cases hb
    show E v (d.resolve _ anchor s.1) s = _
    rw [DynamicPlan.resolve_frozen (hfrozen _ anchor rfl)]

/-- A node's report depends on the nodes it names, and on what dynamic anchors are bound to. -/
theorem apply_congr {node : NodePlan} {live : Nat → Prop} (hrefs : ∀ b ∈ node.refs, live b)
    (hbound : ∀ b ∈ d.bindings, live b.target) {E E' : Outcomes V L d} (h : ∀ v u, live u → E v u = E' v u) (v : V)
    (s : d.Rooted) : R.apply node E v s = R.apply node E' v s := by
  have hchild : ∀ b ∈ node.refs, E v b = E' v b := fun b hb => h v b (hrefs b hb)
  unfold Reading.apply
  split
  · rw [hchild _ List.mem_cons_self]
  · rename_i initialTarget anchor
    rcases d.resolve_target initialTarget anchor s.1 with heq | ⟨b, hb, heq⟩
    · rw [heq, hchild _ List.mem_cons_self]
    · rw [heq, h v _ (hbound b hb)]
  · rename_i branches
    have hb : ∀ b ∈ branches, E v b = E' v b := hchild
    ext x
    exact exists_congr fun b => and_congr_right fun hmem => by rw [hb b hmem]
  · rename_i branches
    have hb : ∀ b ∈ branches, E v b = E' v b := hchild
    ext x
    refine and_congr (forall₂_congr fun b hmem => by rw [hb b hmem]) (or_congr_right ?_)
    exact exists_congr fun b => and_congr_right fun hmem => by rw [hb b hmem]
  · rename_i branches
    have hb : ∀ b ∈ branches, E v b = E' v b := hchild
    ext x
    refine exists_congr fun pre => exists_congr fun b => exists_congr fun post => and_congr_right fun hsplit => ?_
    have hmem : b ∈ branches := by
      rw [hsplit]
      exact List.mem_append_right _ List.mem_cons_self
    have hrest : ∀ b' ∈ pre ++ post, E v b' = E' v b' := by
      intro b' hb'
      refine hb b' ?_
      rw [hsplit]
      rcases List.mem_append.1 hb' with hb' | hb'
      · exact List.mem_append_left _ hb'
      · exact List.mem_append_right _ (List.mem_cons_of_mem _ hb')
    rw [hb b hmem]
    exact and_congr_right fun _ => and_congr_left fun _ => forall₂_congr fun b' hb' => by rw [hrest b' hb']
  · rw [hchild _ List.mem_cons_self]
  all_goals
    rw [R.named _ E E' fun v' b hb => h v' b (hrefs b hb)]

/-! ## The least solution of a component -/

theorem override_of_mem {E D : Outcomes V L d} {c : List Nat} {u : Nat} (h : u ∈ c) (v : V) :
    E.override (· ∈ c) D v u = D v u := if_pos h

theorem override_of_not_mem {E D : Outcomes V L d} {c : List Nat} {u : Nat} (h : u ∉ c) (v : V) :
    E.override (· ∈ c) D v u = E v u := if_neg h

/-- `T` is the least solution on `c` of the equations of `t`, given `X` outside. -/
structure LeastSolution (R : Reading V L d) (t : NodeTable) (c : List Nat) (X T : Outcomes V L d) : Prop where
  fixed : ∀ v u s, u ∈ c → T v u s = R.rhs t (X.override (· ∈ c) T) u v s
  least : ∀ D : Outcomes V L d, (∀ v u s, u ∈ c → R.rhs t (X.override (· ∈ c) D) u v s ⊆ D v u s) →
    ∀ v u s, u ∈ c → T v u s ⊆ D v u s

/-- The outcomes of the table a component was lowered to, at what was made for it. -/
structure MadeBy (env : LowerEnv) (R : Reading V L d) (c : List Nat) (t t' : NodeTable) (X : Outcomes V L d) :
    Prop where
  lowered : Lowered env c t t'
  fresh : ∀ v u s, t.nodes.length ≤ u → u < t'.nodes.length → X v u s = R.rhs t' X u v s
  never : ∀ k, t'.never = some k → ∀ v s, X v k s = ∅
  root : ∀ u, t.nodes.length ≤ u → d.nodeResource u = d.rootResource

section Core
variable {env : LowerEnv} {t t' : NodeTable} {c : List Nat} {X : Outcomes V L d}

theorem lt_of_node {t : NodeTable} {u : Nat} (h : t.node u ≠ .unsupported) : u < t.nodes.length := by
  by_contra hu
  refine h ?_
  unfold NodeTable.node
  rw [List.getElem?_eq_none (Nat.not_lt.1 hu)]
  rfl

/-- A node made for the component reports, in any scope, what it is made of. -/
theorem MadeBy.apply (h : MadeBy env R c t t' X) {k : Nat} (hk : t.nodes.length ≤ k) (hnode : t'.node k ≠ .unsupported)
    (v : V) (s : d.Rooted) : X v k s = R.apply (t'.node k) X v s := by
  rw [h.fresh v k s hk (lt_of_node hnode)]
  unfold Reading.rhs
  rw [d.enterNode_root s (h.root k hk)]

theorem rhs_of_link {u k : Nat} (hlink : t'.node u = .ref k) (v : V) (s : d.Rooted) :
    R.rhs t' X u v s = X v k (d.enterNode s u) := by
  unfold Reading.rhs
  rw [hlink]
  rfl

/-- A component without a union accepts nothing. -/
theorem leastSolution_never (hm : MadeBy env R c t t' X) (hk : Knotted t c) (hf : Faithful L d t (· ∈ c))
    (hscan : ∀ u ∈ c, ∃ flags, scanNode (t.node u) = .ok flags) {k : Nat} (hnever : t'.never = some k)
    (hunion : ∀ u ∈ c, ∀ x, scanNode (t.node u) ≠ .ok (true, x)) (hlink : ∀ u ∈ c, t'.node u = .ref k) :
    LeastSolution R t c X (fun v u s => R.rhs t' X u v s) := by
  have hempty : ∀ v u s, u ∈ c → R.rhs t' X u v s = ∅ := fun v u s hu => by
    rw [rhs_of_link (hlink u hu), hm.never k hnever]
  refine ⟨fun v u s hu => ?_, fun D _ v u s hu => ?_⟩
  · show R.rhs t' X u v s = _
    rw [hempty v u s hu]
    -- Each member needs a member, and no member accepts.
    obtain ⟨w, hw, hchild⟩ := hk.child u hu
    obtain ⟨flags, hflags⟩ := hscan u hu
    unfold Reading.rhs
    cases combines_of_scanNode hflags with
    | single b hb =>
      have hb' : t.children u = [b] := hb
      rw [hb', List.mem_singleton] at hchild
      rw [apply_single hf hu hflags hb, override_of_mem (hchild ▸ hw)]
      exact (hempty v b _ (hchild ▸ hw)).symm
    | any bs hnode => exact absurd hflags (hunion u hu false)
    | all bs hnode =>
      unfold NodeTable.children at hchild
      rw [hnode] at hchild ⊢
      refine (Set.eq_empty_of_forall_notMem fun x hx => ?_).symm
      have := hx.1 w hchild
      rw [override_of_mem hw] at this
      change none ∈ R.rhs t' X w v _ at this
      rw [hempty v w _ hw] at this
      cases this
  · show R.rhs t' X u v s ⊆ _
    rw [hempty v u s hu]
    exact Set.empty_subset _

/-- The members of a component with a union enter one resource. -/
theorem Faithful.enter_twice (hf : Faithful L d t (· ∈ c)) (hunion : ∃ u ∈ c, ∃ x, scanNode (t.node u) = .ok (true, x))
    {u w : Nat} (hu : u ∈ c) (hw : w ∈ c) (s : d.Rooted) : d.enterNode (d.enterNode s u) w = d.enterNode s u := by
  refine d.enterNode_twice s fun he => hf.resource he ?_ u hu w hw
  obtain ⟨m, hm, x, hx⟩ := hunion
  exact ⟨m, hm, any_of_scanNode hx⟩

/-- The node a union component comes down to reports what the branches that leave it report. -/
theorem mem_unionTarget (hm : MadeBy env R c t t' X) {k : Nat}
    (htarget : (externalBranches t c = [] ∧ t'.never = some k) ∨ externalBranches t c = [k] ∨
      (t.nodes.length ≤ k ∧ t'.node k = .combinator ⟨.any, externalBranches t c⟩)) (v :
      V) (s : d.Rooted) (x : Option L) :
    x ∈ X v k s ↔ ∃ b, External t c b ∧ x ∈ X v b s := by
  have hext : (∃ b, External t c b ∧ x ∈ X v b s) ↔ ∃ b ∈ externalBranches t c, x ∈ X v b s := by
    simp only [mem_externalBranches]
  rw [hext]
  rcases htarget with ⟨hnil, hnever⟩ | hone | ⟨hlo, hnode⟩
  · rw [hnil, hm.never k hnever]
    simp
  · rw [hone]
    simp
  · rw [hm.apply hlo (by rw [hnode]; nofun), hnode]
    rfl

/-- A union component reports what the branches that leave it report. -/
theorem leastSolution_union (hm : MadeBy env R c t t' X) (hk : Knotted t c) (hf : Faithful L d t (· ∈ c))
    (hscan : ∀ u ∈ c, ∃ flags, scanNode (t.node u) = .ok flags) {k : Nat}
    (hunion : ∃ u ∈ c, ∃ x, scanNode (t.node u) = .ok (true, x))
    (hinter : ∀ u ∈ c, ∀ x, scanNode (t.node u) ≠ .ok (x, true))
    (htarget : (externalBranches t c = [] ∧ t'.never = some k) ∨ externalBranches t c = [k] ∨
      (t.nodes.length ≤ k ∧ t'.node k = .combinator ⟨.any, externalBranches t c⟩))
    (hlink : ∀ u ∈ c, t'.node u = .ref k) : LeastSolution R t c X (fun v u s => R.rhs t' X u v s) := by
  have hT : ∀ v s u, u ∈ c → R.rhs t' X u v s = X v k (d.enterNode s u) := fun v s u hu => rhs_of_link (hlink u hu) v s
  have hX := mem_unionTarget hm htarget
  refine ⟨fun v u s hu => ?_, fun D hD v u s hu x hx => ?_⟩
  · show R.rhs t' X u v s = R.apply (t.node u) _ v (d.enterNode s u)
    rw [hT v s u hu]
    have hmember : ∀ w ∈ c, X.override (· ∈ c) (fun v u s => R.rhs t' X u v s) v w (d.enterNode s u) =
        X v k (d.enterNode s u) := fun w hw => by
      rw [override_of_mem hw, hT v _ w hw, hf.enter_twice hunion hu hw]
    obtain ⟨w, hw, hchild⟩ := hk.child u hu
    obtain ⟨flags, hflags⟩ := hscan u hu
    cases combines_of_scanNode hflags with
    | single b hb =>
      have hb' : t.children u = [b] := hb
      rw [hb', List.mem_singleton] at hchild
      rw [apply_single hf hu hflags hb, hmember b (hchild ▸ hw)]
    | any bs hnode =>
      have hchildren : t.children u = bs := by
        unfold NodeTable.children
        rw [hnode]
        rfl
      rw [hchildren] at hchild
      rw [hnode]
      ext x
      constructor
      · exact fun hx => ⟨w, hchild, by rwa [hmember w hw]⟩
      · rintro ⟨b, hb, hx⟩
        by_cases hbc : b ∈ c
        · rwa [hmember b hbc] at hx
        · rw [override_of_not_mem hbc] at hx
          exact (hX v _ x).2 ⟨b, ⟨u, hu, hchildren ▸ hb, hbc⟩, hx⟩
    | all bs hnode => exact absurd hflags (hinter u hu false)
  · -- A branch that leaves the component at `w` is reported by `w`, so by every member on a path to `w`.
    change x ∈ R.rhs t' X u v s at hx
    rw [hT v s u hu, hX] at hx
    obtain ⟨b, ⟨w, hw, hchild, hbc⟩, hx⟩ := hx
    have hstep : ∀ a ∈ c, ∀ b' ∈ t.children a, ∀ s' y,
        y ∈ X.override (· ∈ c) D v b' (d.enterNode s' a) → y ∈ D v a s' := by
      intro a ha b' hb' s' y hy
      refine hD v a s' ha ?_
      show y ∈ R.apply (t.node a) _ v (d.enterNode s' a)
      obtain ⟨flags, hflags⟩ := hscan a ha
      cases combines_of_scanNode hflags with
      | single c hc =>
        have hc' : t.children a = [c] := hc
        rw [hc', List.mem_singleton] at hb'
        rw [apply_single hf ha hflags hc, ← hb']
        exact hy
      | any bs hnode =>
        unfold NodeTable.children at hb'
        rw [hnode] at hb' ⊢
        exact ⟨b', hb', hy⟩
      | all bs hnode => exact absurd hflags (hinter a ha false)
    have hpath := hk.inside u hu w hw
    clear hlink hT
    induction hpath using ReflTransGen.head_induction_on generalizing s with
    | refl => exact hstep w hw b hchild s x (by rwa [override_of_not_mem hbc])
    | head hedge _ ih =>
      obtain ⟨ha, ha', hchild'⟩ := hedge
      refine hstep _ ha _ hchild' s x ?_
      rw [override_of_mem ha']
      refine ih (d.enterNode s _) ha' ?_
      rwa [hf.enter_twice hunion ha ha']

/-! ## Rounds -/

theorem lookup_zip : ∀ {c l : List Nat} {u m : Nat}, c.Nodup → (u, m) ∈ c.zip l → (c.zip l).lookup u = some m
  | [], _, _, _, _, h => by simp at h
  | _ :: _, [], _, _, _, h => by simp at h
  | a :: c, b :: l, u, m, hnd, h => by
    rw [List.zip_cons_cons, List.lookup_cons]
    rw [List.zip_cons_cons, List.mem_cons] at h
    rcases h with h | h
    · cases h
      simp
    · have hne : u ≠ a := fun heq => (List.nodup_cons.1 hnd).1 (heq ▸ (List.of_mem_zip h).1)
      rw [beq_false_of_ne hne]
      exact lookup_zip (List.nodup_cons.1 hnd).2 h

theorem resolvedChild_of_mem {c l : List Nat} {u m : Nat} (hnd : c.Nodup) (h : (u, m) ∈ c.zip l) :
    resolvedChild c l u = m := by
  unfold resolvedChild
  rw [lookup_zip hnd h]
  rfl

theorem resolvedChild_of_not_mem {c l : List Nat} {u : Nat} (h : u ∉ c) : resolvedChild c l u = u := by
  unfold resolvedChild
  cases hl : (c.zip l).lookup u with
  | none => rfl
  | some m =>
    obtain ⟨l₁, l₂, heq, -⟩ := List.lookup_eq_some_iff.1 hl
    have hmem : (u, m) ∈ c.zip l := by
      rw [heq]
      exact List.mem_append_right _ List.mem_cons_self
    exact absurd (List.of_mem_zip hmem).1 h

theorem mem_zip_of_mem {c l : List Nat} (hlen : l.length = c.length) {u : Nat} (hu : u ∈ c) :
    ∃ m, (u, m) ∈ c.zip l := by
  have hfst : u ∈ (c.zip l).map Prod.fst := by
    rw [List.map_fst_zip (by omega)]
    exact hu
  obtain ⟨⟨u', m⟩, hp, rfl⟩ := List.mem_map.1 hfst
  exact ⟨m, hp⟩

theorem forall₂_zip {α : Type} {P : Nat → α → Prop} {Q : α → Nat → Prop} :
    ∀ {c : List Nat} {es : List α} {l : List Nat},
    List.Forall₂ P c es → List.Forall₂ Q es l → ∀ u m, (u, m) ∈ c.zip l → ∃ e, P u e ∧ Q e m
  | _, _, _, .nil, .nil, _, _, h => by simp at h
  | _, _, _, .cons hp hps, .cons hq hqs, u, m, h => by
    rw [List.zip_cons_cons, List.mem_cons] at h
    rcases h with h | h
    · cases h
      exact ⟨_, hp, hq⟩
    · exact forall₂_zip hps hqs u m h

/-- Whether an operator accepts, from whether its branches do. -/
def Holds (node : NodePlan) (S : Nat → Prop) : Prop :=
  match node with
  | .combinator ⟨.any, bs⟩ => ∃ b ∈ bs, S b
  | node => ∀ b ∈ node.sameInstanceChildren, S b

theorem Holds.mono {node : NodePlan} {S S' : Nat → Prop} (h : ∀ b, S b → S' b) (hS : Holds node S) : Holds node S' := by
  unfold Holds at hS ⊢
  split
  · obtain ⟨b, hb, hS⟩ := hS
    exact ⟨b, hb, h b hS⟩
  · rename_i hne
    split at hS
    · exact absurd rfl (hne _)
    · exact fun b hb => h b (hS b hb)

theorem holds_single {node : NodePlan} {b : Nat} (h : node.sameInstanceChildren = [b]) (S : Nat → Prop) :
    Holds node S ↔ S b := by
  unfold Holds
  split
  · rename_i bs
    cases (h : bs = [b])
    simp
  · rw [h]
    simp

theorem mem_apply_none (hf : Faithful L d t (· ∈ c)) {u : Nat} (hu : u ∈ c)
    (hscan : ∃ flags, scanNode (t.node u) = .ok flags) (E : Outcomes V L d) (v : V) (s : d.Rooted) :
    none ∈ R.apply (t.node u) E v s ↔ Holds (t.node u) (fun b => none ∈ E v b s) := by
  obtain ⟨flags, hflags⟩ := hscan
  cases combines_of_scanNode hflags with
  | single b hb => rw [apply_single hf hu hflags hb, holds_single hb]
  | any bs hnode =>
    rw [hnode]
    rfl
  | all bs hnode =>
    rw [hnode]
    exact ⟨fun h => h.1, fun h => ⟨h, .inl rfl⟩⟩

/-- A member's node of one round accepts as the member does with the nodes of the round before for members. -/
theorem unrolled_accepts (hm : MadeBy env R c t t' X) {ρ : Nat → Nat} {u m : Nat} {e : PositiveCycleExpr}
    (he : positiveExpr t u = .ok e) (hu : Unrolled t t' ρ e m) (v : V) (s : d.Rooted) :
    none ∈ X v m s ↔ Holds (t.node u) (fun b => none ∈ X v (ρ b) s) := by
  obtain ⟨hkind, hchildren, hshape⟩ := positiveExpr_ok he
  rcases hu with ⟨b, hb, rfl⟩ | ⟨kind, hk, hlo, -, hnode⟩
  · rw [holds_single (show (t.node u).sameInstanceChildren = [b] by rw [← hb, hchildren]; rfl)]
  · obtain ⟨kind', hk', hnode'⟩ : ∃ kind, e.kind = some kind ∧ t.node u = .combinator ⟨kind, e.children⟩ := by
      rcases hshape with ⟨hnone, -⟩ | hshape
      · rw [hnone] at hk
        cases hk
      · exact hshape
    rw [hk] at hk'
    cases hk'
    rw [hm.apply hlo (by rw [hnode]; nofun), hnode, hnode']
    cases kind with
    | any =>
      show (∃ b ∈ e.children.map ρ, none ∈ X v b s) ↔ ∃ b ∈ e.children, none ∈ X v (ρ b) s
      simp
    | all =>
      show (∀ b ∈ e.children.map ρ, none ∈ X v b s) ∧ _ ↔ ∀ b ∈ e.children, none ∈ X v (ρ b) s
      simp
    | exactlyOne => exact absurd hk hkind

/-- The system of truth values of a component, given what holds outside. -/
def boolStep (t : NodeTable) (c : List Nat) (outside : Nat → Prop) (A : Set Nat) : Set Nat :=
  { u | u ∈ c ∧ Holds (t.node u) (fun b => (b ∈ c ∧ b ∈ A) ∨ (b ∉ c ∧ outside b)) }

theorem boolStep_mono (t : NodeTable) (c : List Nat) (outside : Nat → Prop) : Monotone (boolStep t c outside) :=
  fun _ _ hAB _ hu => ⟨hu.1, hu.2.mono fun _ hb => hb.imp (fun h => ⟨h.1, hAB h.2⟩) id⟩

/-- **The nodes of a round are that round of the system.** -/
theorem stage_eq_iterate (hm : MadeBy env R c t t' X) (hnd : c.Nodup) {bottom : Nat} {exprs : List PositiveCycleExpr}
    {stage : Nat → List Nat} (hnever : t'.never = some bottom)
    (hexprs : List.Forall₂ (fun u e => positiveExpr t u = .ok e) c exprs)
    (hzero : stage 0 = List.replicate c.length bottom)
    (hstep : ∀ k, k < c.length → List.Forall₂ (Unrolled t t' (resolvedChild c (stage k))) exprs (stage (k + 1)))
    (v : V) (s : d.Rooted) : ∀ k, k ≤ c.length →
      { u | u ∈ c ∧ none ∈ X v (resolvedChild c (stage k) u) s } =
        (boolStep t c (fun b => none ∈ X v b s))^[k] ∅
  | 0, _ => by
    refine Set.eq_empty_of_forall_notMem fun u hu => ?_
    obtain ⟨m, hmem⟩ := mem_zip_of_mem (l := stage 0) (by rw [hzero, List.length_replicate]) hu.1
    have hbottom : m = bottom := by
      have := (List.of_mem_zip hmem).2
      rw [hzero] at this
      exact List.eq_of_mem_replicate this
    have := hu.2
    rw [resolvedChild_of_mem hnd hmem, hbottom, hm.never bottom hnever] at this
    cases this
  | k + 1, hk => by
    have ih := stage_eq_iterate hm hnd hnever hexprs hzero hstep v s k (by omega)
    rw [Function.iterate_succ_apply', ← ih]
    have hlen : (stage (k + 1)).length = c.length := by
      rw [← (hstep k (by omega)).length_eq, hexprs.length_eq]
    ext u
    refine and_congr_right fun hu => ?_
    obtain ⟨m, hmem⟩ := mem_zip_of_mem hlen hu
    obtain ⟨e, he, hunrolled⟩ := forall₂_zip hexprs (hstep k (by omega)) u m hmem
    rw [resolvedChild_of_mem hnd hmem, unrolled_accepts hm he hunrolled v s]
    have hiff : ∀ b, none ∈ X v (resolvedChild c (stage k) b) s ↔
        (b ∈ c ∧ b ∈ { u | u ∈ c ∧ none ∈ X v (resolvedChild c (stage k) u) s }) ∨ (b ∉ c ∧ none ∈ X v b s) := by
      intro b
      by_cases hb : b ∈ c
      · simp [hb]
      · simp [hb, resolvedChild_of_not_mem hb]
    simp only [← hiff]

/-- A component that mixes unions and intersections accepts what the rounds accept. -/
theorem leastSolution_mixed [IsEmpty L] (hm : MadeBy env R c t t' X) (hnd : c.Nodup) (hf : Faithful L d t (· ∈ c))
    (hscan : ∀ u ∈ c, ∃ flags, scanNode (t.node u) = .ok flags) {bottom : Nat} {exprs : List PositiveCycleExpr}
    {stage : Nat → List Nat} (hnever : t'.never = some bottom)
    (hunion : ∃ u ∈ c, ∃ x, scanNode (t.node u) = .ok (true, x))
    (hexprs : List.Forall₂ (fun u e => positiveExpr t u = .ok e) c exprs)
    (hzero : stage 0 = List.replicate c.length bottom)
    (hstep : ∀ k, k < c.length → List.Forall₂ (Unrolled t t' (resolvedChild c (stage k))) exprs (stage (k + 1)))
    (hlink : ∀ u k, (u, k) ∈ c.zip (stage c.length) → t'.node u = .ref k) :
    LeastSolution R t c X (fun v u s => R.rhs t' X u v s) := by
  have hstages := stage_eq_iterate hm hnd hnever hexprs hzero hstep
  have hlen : (stage c.length).length = c.length := by
    cases hc : c.length with
    | zero => rw [hzero, List.length_replicate, hc]
    | succ n => rw [← (hstep n (by omega)).length_eq, ← hexprs.length_eq, hc]
  have hT : ∀ v s u, u ∈ c → R.rhs t' X u v s = X v (resolvedChild c (stage c.length) u) (d.enterNode s u) := by
    intro v s u hu
    obtain ⟨m, hmem⟩ := mem_zip_of_mem hlen hu
    rw [resolvedChild_of_mem hnd hmem, rhs_of_link (hlink u m hmem)]
  -- Without locations, a report is whether the node accepts.
  have hext : ∀ A B : Set (Option L), (none ∈ A → none ∈ B) → A ⊆ B := by
    intro A B h x hx
    cases x with
    | none => exact h hx
    | some l => exact isEmptyElim l
  have hfixed : ∀ v s, boolStep t c (fun b => none ∈ X v b s)
      { u | u ∈ c ∧ none ∈ X v (resolvedChild c (stage c.length) u) s } =
        { u | u ∈ c ∧ none ∈ X v (resolvedChild c (stage c.length) u) s } := by
    intro v s
    rw [hstages v s c.length (Nat.le_refl _), ← List.toFinset_card_of_nodup hnd]
    exact Kleene.iterate_fixed (boolStep_mono _ _ _) _ fun A u hu => by simpa using hu.1
  refine ⟨fun v u s hu => ?_, fun D hD v u s hu => ?_⟩
  · have hiff : none ∈ R.rhs t' X u v s ↔
        none ∈ R.rhs t (X.override (· ∈ c) (fun v u s => R.rhs t' X u v s)) u v s := by
      show _ ↔ none ∈ R.apply (t.node u) _ v (d.enterNode s u)
      rw [mem_apply_none hf hu (hscan u hu), hT v s u hu]
      have hmem := Set.ext_iff.1 (hfixed v (d.enterNode s u)) u
      have hbranch : ∀ b, none ∈ X.override (· ∈ c) (fun v u s => R.rhs t' X u v s) v b (d.enterNode s u) ↔
          (b ∈ c ∧ b ∈ { u' | u' ∈ c ∧ none ∈ X v (resolvedChild c (stage c.length) u') (d.enterNode s u) }) ∨
            (b ∉ c ∧ none ∈ X v b (d.enterNode s u)) := by
        intro b
        by_cases hb : b ∈ c
        · rw [override_of_mem hb, hT v _ b hb, hf.enter_twice hunion hu hb]
          simp [hb]
        · rw [override_of_not_mem hb]
          simp [hb]
      simp only [hbranch]
      exact ⟨fun h => (hmem.2 ⟨hu, h⟩).2, fun h => (hmem.1 ⟨hu, h⟩).2⟩
    exact Set.Subset.antisymm (hext _ _ hiff.1) (hext _ _ hiff.2)
  · -- Round after round, what a round accepts is in every solution.
    have hround : ∀ k, k ≤ c.length → ∀ u ∈ c, ∀ s, none ∈ X v (resolvedChild c (stage k) u) (d.enterNode s u) →
        none ∈ D v u s := by
      intro k
      induction k with
      | zero =>
        intro hk u hu s h
        have : u ∈ { u' | u' ∈ c ∧ none ∈ X v (resolvedChild c (stage 0) u') (d.enterNode s u) } := ⟨hu, h⟩
        rw [hstages v _ 0 hk] at this
        cases this
      | succ k ih =>
        intro hk u hu s h
        refine hD v u s hu ?_
        show none ∈ R.apply (t.node u) _ v (d.enterNode s u)
        rw [mem_apply_none hf hu (hscan u hu)]
        have : u ∈ { u' | u' ∈ c ∧ none ∈ X v (resolvedChild c (stage (k + 1)) u') (d.enterNode s u) } := ⟨hu, h⟩
        rw [hstages v _ (k + 1) hk, Function.iterate_succ_apply', ← hstages v _ k (by omega)] at this
        refine this.2.mono fun b hb => ?_
        rcases hb with ⟨hb, -, hacc⟩ | ⟨hb, hacc⟩
        · rw [override_of_mem hb]
          refine ih (by omega) b hb _ ?_
          rwa [hf.enter_twice hunion hu hb]
        · rwa [override_of_not_mem hb]
    refine hext _ _ fun h => hround c.length (Nat.le_refl _) u hu s ?_
    rwa [← hT v s u hu]

/-- **What a component was lowered to is its least solution.** -/
theorem leastSolution_of_shape (hm : MadeBy env R c t t' X) (hs : Shape c t t') (hnd : c.Nodup) (hk : Knotted t c)
    (hf : Faithful L d t (· ∈ c)) (hscan : ∀ u ∈ c, ∃ flags, scanNode (t.node u) = .ok flags) :
    LeastSolution R t c X (fun v u s => R.rhs t' X u v s) := by
  cases hs with
  | never k hnever hunion hlink => exact leastSolution_never hm hk hf hscan hnever hunion hlink
  | union k hunion hinter htarget hlink => exact leastSolution_union hm hk hf hscan hunion hinter htarget hlink
  | mixed bottom exprs stage hnever hunion hinter hexprs hzero hstep hlink =>
    obtain ⟨a, ha, x, hx⟩ := hunion
    obtain ⟨b, hb, y, hy⟩ := hinter
    have := hf.unmixed ⟨a, ha, any_of_scanNode hx⟩ ⟨b, hb, all_of_scanNode hy⟩
    exact leastSolution_mixed hm hnd hf hscan hnever ⟨a, ha, x, hx⟩ hexprs hzero hstep hlink

end Core
end
end MaskForge
