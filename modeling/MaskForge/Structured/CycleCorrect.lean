import MaskForge.Structured.CycleMeaning
/-!
# CycleCorrect — resolving same-instance cycles keeps the meaning of a plan

Component by component, a solution of the equations that is least on the components still to come is a solution of the
rewritten equations, extended to the nodes made on the way, and the other way round.  At the end no cycle is left, so
the solutions of the table the pass returns are the meanings of the table it was given.
-/
namespace MaskForge
open NodeTable Relation

/-- The nodes of a table that count: the compiled ones and those made since. -/
def LiveIn (reachable : List Bool) (t : NodeTable) (u : Nat) : Prop :=
  compiledAt reachable u = true ∨ (reachable.length ≤ u ∧ u < t.nodes.length)

/-- Live nodes name live nodes. -/
structure Closed (d : DynamicPlan) (reachable : List Bool) (t : NodeTable) : Prop where
  le : reachable.length ≤ t.nodes.length
  refs : ∀ u, LiveIn reachable t u → ∀ b ∈ (t.node u).refs, LiveIn reachable t b
  bound : ∀ b ∈ d.bindings, compiledAt reachable b.target = true

theorem refs_of_children : ∀ (node : NodePlan), ∀ b ∈ node.sameInstanceChildren, b ∈ node.refs
  | .object plan, b, hb => by
    simp only [NodePlan.refs, List.mem_append]
    exact .inl (.inl (.inl (.inl hb)))
  | .unevaluated plan, b, hb => List.mem_cons.2 (.inl (List.mem_singleton.1 hb))
  | .regular _, _, hb | .array _, _, hb | .string _, _, hb | .stringEnum _, _, hb | .number _ _, _, hb
  | .unsupported, _, hb => by cases hb
  | .ref _, _, hb | .dynamicRef _ _, _, hb | .combinator _, _, hb | .negation _, _, hb => hb

section
variable {env : LowerEnv} {d : DynamicPlan} {reachable : List Bool} {t t' : NodeTable} {c : List Nat}
  {rest : List (List Nat)}

theorem LiveIn.lt {u : Nat} (h : LiveIn reachable t u) (hc : Closed d reachable t) : u < t.nodes.length := by
  rcases h with h | h
  · exact Nat.lt_of_lt_of_le (lt_of_compiledAt h) hc.le
  · exact h.2

theorem LiveIn.mono {u : Nat} (h : LiveIn reachable t u) (hle : t.nodes.length ≤ t'.nodes.length) :
    LiveIn reachable t' u := h.imp id (fun h => ⟨h.1, Nat.lt_of_lt_of_le h.2 hle⟩)

/-- What a node made for a component may apply is there. -/
theorem Target.live {m b : Nat} (h : Target t c m b) (hclosed : Closed d reachable t)
    (hp : Pending env reachable.length t (c :: rest)) (hcomp : ∀ u ∈ c, compiledAt reachable u = true)
    (hle : t.nodes.length ≤ t'.nodes.length) (hm : m ≤ t'.nodes.length) :
    LiveIn reachable t' b ∧ (t.nodes.length ≤ m → b < m) := by
  rcases h with ⟨u, hu, hchild, -⟩ | ⟨hlo, hhi⟩ | hnever
  · have hlive := hclosed.refs u (.inl (hcomp u hu)) b (refs_of_children _ b hchild)
    exact ⟨hlive.mono hle, fun h => Nat.lt_of_lt_of_le (hlive.lt hclosed) h⟩
  · exact ⟨.inr ⟨Nat.le_trans hp.le hlo, Nat.lt_of_lt_of_le hhi hm⟩, fun _ => hhi⟩
  · obtain ⟨h1, h2, -⟩ := hp.never b hnever
    exact ⟨.inr ⟨h1, Nat.lt_of_lt_of_le h2 hle⟩, fun h => Nat.lt_of_lt_of_le h2 h⟩

theorem Synthetic.refs {branch : Nat → Prop} {node : NodePlan} (h : Synthetic env branch node) :
    ∀ b ∈ node.refs, branch b := by
  rcases h with ⟨e, -, rfl⟩ | ⟨kind, bs, -, rfl, h⟩
  · intro b hb
    cases hb
  · exact h

theorem Closed.lowered (hclosed : Closed d reachable t) (hp : Pending env reachable.length t (c :: rest))
    (hcomp : ∀ u ∈ c, compiledAt reachable u = true) (hl : Lowered env c t t') : Closed d reachable t' := by
  refine ⟨Nat.le_trans hclosed.le hl.le, fun u hu b hb => ?_, hclosed.bound⟩
  by_cases hmem : u ∈ c
  · obtain ⟨k, hnode, hk⟩ := hl.linked u hmem
    rw [hnode] at hb
    rw [List.mem_singleton.1 hb]
    exact (hk.live hclosed hp hcomp hl.le (Nat.le_refl _)).1
  · by_cases hlt : u < t.nodes.length
    · rw [hl.frame u hlt hmem] at hb
      have hu' : LiveIn reachable t u := hu.imp id (fun h => ⟨h.1, hlt⟩)
      exact (hclosed.refs u hu' b hb).mono hl.le
    · have hlt' : u < t'.nodes.length := by
        rcases hu with hu | hu
        · have := lt_of_compiledAt hu
          have := hclosed.le
          omega
        · exact hu.2
      have := (hl.fresh u (Nat.not_lt.1 hlt) hlt').refs b hb
      exact (this.live hclosed hp hcomp hl.le (Nat.le_of_lt hlt')).1

variable {V L : Type} {R : Reading V L d}

/-- Nodes that name earlier nodes only have outcomes. -/
theorem exists_extension {m : Nat} (hrefs : ∀ u, m ≤ u → u < t'.nodes.length → ∀ b ∈ (t'.node u).refs, b < u)
    (hbound : ∀ b ∈ d.bindings, b.target < m) (E : Outcomes V L d) : ∀ k : Nat, ∃ E' : Outcomes V L d,
      (∀ v u, u < m → E' v u = E v u) ∧
      ∀ v u s, m ≤ u → u < m + k → u < t'.nodes.length → E' v u s = R.rhs t' E' u v s
  | 0 => ⟨E, fun _ _ _ => rfl, fun _ _ _ h1 h2 _ => by omega⟩
  | k + 1 => by
    obtain ⟨E₁, hagree, hsolves⟩ := exists_extension hrefs hbound E k
    refine ⟨fun v u => if u = m + k then fun s => R.rhs t' E₁ u v s else E₁ v u, fun v u hu => ?_, ?_⟩
    · show (if u = m + k then _ else E₁ v u) = E v u
      rw [if_neg (by omega), hagree v u hu]
    · intro v u s hlo hhi hlt
      -- The new outcome is read by no node up to its own.
      have hsame : R.rhs t' E₁ u v s =
          R.rhs t' (fun v u => if u = m + k then fun s => R.rhs t' E₁ u v s else E₁ v u) u v s := by
        refine apply_congr (hrefs u hlo hlt) (fun b hb => Nat.lt_of_lt_of_le (hbound b hb) hlo) (fun v' b hb => ?_) v _
        show E₁ v' b = if b = m + k then _ else E₁ v' b
        rw [if_neg (by omega)]
      rw [← hsame]
      by_cases hu : u = m + k
      · simp only [if_pos hu]
      · simp only [if_neg hu]
        exact hsolves v u s hlo (by omega) hlt

/-! ## One component -/

/-- The equation of a live node reads outcomes of the table's own nodes only. -/
theorem Closed.rhs_eq (hclosed : Closed d reachable t) {E E' : Outcomes V L d}
    (hagree : ∀ v u, u < t.nodes.length → E' v u = E v u) {u : Nat} (hnode : t'.node u = t.node u)
    (hu : LiveIn reachable t u) (v : V) (s : d.Rooted) : R.rhs t' E' u v s = R.rhs t E u v s := by
  unfold Reading.rhs
  rw [hnode]
  exact apply_congr (hclosed.refs u hu) (fun b hb => .inl (hclosed.bound b hb))
    (fun v' b hb => hagree v' b (hb.lt hclosed)) v _

theorem override_agree {E E' D : Outcomes V L d} {n : Nat} (hagree : ∀ v u, u < n → E' v u = E v u) (v : V) (u : Nat)
    (hu : u < n) : E'.override (· ∈ c) D v u = E.override (· ∈ c) D v u := by
  unfold Outcomes.override
  split
  · rfl
  · exact hagree v u hu

/-- A component and the table it was lowered to, with what the proof uses of both. -/
structure LoweredAt (env : LowerEnv) (L : Type) (d : DynamicPlan) (reachable : List Bool) (c : List Nat)
    (rest : List (List Nat)) (t t' : NodeTable) : Prop where
  closed : Closed d reachable t
  pending : Pending env reachable.length t (c :: rest)
  compiled : ∀ u ∈ c, compiledAt reachable u = true
  lowered : Lowered env c t t'
  shape : Shape c t t'
  scan : ∀ u ∈ c, ∃ flags, scanNode (t.node u) = .ok flags
  knotted : Knotted t c
  faithful : Faithful L d t (· ∈ c)
  never : ∀ e, env.neverEngine = .ok e → e.Empty
  root : d.nodeResources.length = reachable.length

namespace LoweredAt
variable (h : LoweredAt env L d reachable c rest t t')
include h

theorem nodup : c.Nodup := h.pending.nodup c List.mem_cons_self

theorem closed' : Closed d reachable t' := h.closed.lowered h.pending h.compiled h.lowered

/-- The node that accepts nothing accepts nothing. -/
theorem never_empty {X : Outcomes V L d} {k : Nat} (hk : t'.never = some k)
    (hX : ∀ v u s, LiveIn reachable t' u → u ∉ c → X v u s = R.rhs t' X u v s) (v : V) (s : d.Rooted) :
    X v k s = ∅ := by
  obtain ⟨h1, h2, e, he, hnode⟩ := (h.pending.lowered h.lowered).never k hk
  rw [hX v k s (.inr ⟨h1, h2⟩) (fun hmem => Nat.not_lt.2 h1 (lt_of_compiledAt (h.compiled k hmem)))]
  unfold Reading.rhs
  rw [hnode]
  exact R.empty e _ _ _ (h.never e he)

theorem madeBy {X : Outcomes V L d}
    (hfresh : ∀ v u s, t.nodes.length ≤ u → u < t'.nodes.length → X v u s = R.rhs t' X u v s)
    (hnever : ∀ k, t'.never = some k → ∀ v s, X v k s = ∅) : MadeBy env R c t t' X := by
  refine ⟨h.lowered, hfresh, hnever, fun u hu => ?_⟩
  unfold DynamicPlan.nodeResource
  rw [List.getElem?_eq_none (by have := h.root; have := h.closed.le; omega)]
  rfl

/-- **From the old equations to the new**: a solution that is least on the component extends to the nodes
made for it. -/
theorem extends_solution {E : Outcomes V L d} (hE : R.Solves t (LiveIn reachable t) E)
    (hleast : R.LeastOn t (· ∈ c) E) :
    ∃ E' : Outcomes V L d, (∀ v u, u < t.nodes.length → E' v u = E v u) ∧ R.Solves t' (LiveIn reachable t') E' := by
  have hrefs : ∀ u, t.nodes.length ≤ u → u < t'.nodes.length → ∀ b ∈ (t'.node u).refs, b < u := by
    intro u hlo hhi b hb
    have := (h.lowered.fresh u hlo hhi).refs b hb
    exact (this.live h.closed h.pending h.compiled h.lowered.le (Nat.le_of_lt hhi)).2 hlo
  obtain ⟨E', hagree, hfresh⟩ := exists_extension (R := R) hrefs
    (fun b hb => Nat.lt_of_lt_of_le (lt_of_compiledAt (h.closed.bound b hb)) h.closed.le) E t'.nodes.length
  have hfresh' : ∀ v u s, t.nodes.length ≤ u → u < t'.nodes.length → E' v u s = R.rhs t' E' u v s :=
    fun v u s hlo hhi => hfresh v u s hlo (by omega) hhi
  have houtside : ∀ v u s, LiveIn reachable t' u → u ∉ c → E' v u s = R.rhs t' E' u v s := by
    intro v u s hu hc
    by_cases hlt : u < t.nodes.length
    · have hu' : LiveIn reachable t u := hu.imp id (fun h => ⟨h.1, hlt⟩)
      rw [h.closed.rhs_eq hagree (h.lowered.frame u hlt hc) hu', hagree v u hlt, ← hE v u s hu']
    · exact hfresh' v u s (Nat.not_lt.1 hlt) (hu.lt h.closed')
  have hsol := leastSolution_of_shape (h.madeBy hfresh' (fun k hk => h.never_empty hk houtside)) h.shape h.nodup
    h.knotted h.faithful h.scan
  refine ⟨E', hagree, fun v u s hu => ?_⟩
  by_cases hc : u ∈ c
  · have hlt := h.pending.head_lt
    have hlive : ∀ w ∈ c, LiveIn reachable t w := fun w hw => .inl (h.compiled w hw)
    rw [hagree v u (hlt u hc)]
    -- Both are least among the outcomes closed under the component's equations.
    apply Set.Subset.antisymm
    · refine hleast (fun v u s => R.rhs t' E' u v s) (fun v w s' hw => ?_) v u s hc
      rw [← h.closed.rhs_eq (override_agree hagree) rfl (hlive w hw)]
      exact Set.Subset.antisymm_iff.1 (hsol.fixed v w s' hw) |>.2
    · refine hsol.least E (fun v w s' hw => ?_) v u s hc
      have hself : ∀ v' b, b < t.nodes.length → E'.override (· ∈ c) E v' b = E v' b := by
        intro v' b hb
        unfold Outcomes.override
        split
        · rfl
        · exact hagree v' b hb
      rw [h.closed.rhs_eq hself rfl (hlive w hw), ← hE v w s' (hlive w hw)]
  · exact houtside v u s hu hc

/-- **From the new equations to the old.** -/
theorem restricts_solution {E' : Outcomes V L d} (hE' : R.Solves t' (LiveIn reachable t') E') :
    R.Solves t (LiveIn reachable t) E' ∧ R.LeastOn t (· ∈ c) E' := by
  have hsol := leastSolution_of_shape
    (h.madeBy (fun v u s hlo hhi => hE' v u s (.inr ⟨Nat.le_trans h.closed.le hlo, hhi⟩))
    (fun k hk => h.never_empty hk (fun v u s hu _ => hE' v u s hu))) h.shape h.nodup h.knotted h.faithful h.scan
  have hlive : ∀ u ∈ c, LiveIn reachable t' u := fun u hu => .inl (h.compiled u hu)
  have hself : E'.override (· ∈ c) (fun v u s => R.rhs t' E' u v s) = E' := by
    funext v u
    unfold Outcomes.override
    split
    · rename_i hu
      funext s
      exact (hE' v u s (hlive u hu)).symm
    · rfl
  refine ⟨fun v u s hu => ?_, fun D hD v u s hu => ?_⟩
  · by_cases hc : u ∈ c
    · rw [hE' v u s (hlive u hc)]
      have := hsol.fixed v u s hc
      rwa [hself] at this
    · rw [hE' v u s (hu.mono h.lowered.le),
        h.closed.rhs_eq (fun _ _ _ => rfl) (h.lowered.frame u (hu.lt h.closed) hc) hu]
  · rw [hE' v u s (hlive u hu)]
    exact hsol.least D hD v u s hu

end LoweredAt

/-! ## All components -/

/-- The members of a component have the nodes they had. -/
def SameOn (c : List Nat) (t t' : NodeTable) : Prop := ∀ u ∈ c, t'.node u = t.node u

theorem SameOn.children (h : SameOn c t t') {u : Nat} (hu : u ∈ c) : t'.children u = t.children u := by
  unfold NodeTable.children
  rw [h u hu]

theorem SameOn.cyclic (h : SameOn c t t') : cyclic t' c = cyclic t c := by
  unfold MaskForge.cyclic
  split
  · rw [h.children List.mem_cons_self]
  · rfl

theorem SameOn.knotted (h : SameOn c t t') (hk : Knotted t c) : Knotted t' c := by
  constructor
  · intro u hu
    rw [h.children hu]
    exact hk.child u hu
  · intro u hu w hw
    refine ReflTransGen.mono (fun a b hab => ?_) u w (hk.inside u hu w hw)
    rwa [h.children hab.1]

theorem SameOn.faithful (h : SameOn c t t') (hf : Faithful L d t (· ∈ c)) : Faithful L d t' (· ∈ c) := by
  have hback : ∀ {k : CombinatorKind}, (∃ u, u ∈ c ∧ ∃ bs, t'.node u = .combinator ⟨k, bs⟩) →
      ∃ u, u ∈ c ∧ ∃ bs, t.node u = .combinator ⟨k, bs⟩ := by
    rintro k ⟨u, hu, bs, hnode⟩
    exact ⟨u, hu, bs, by rw [← h u hu, hnode]⟩
  refine ⟨fun u hu i a hnode => hf.frozen u hu i a ?_, fun he hunion => hf.resource he (hback hunion),
    fun hunion hinter => hf.unmixed (hback hunion) (hback hinter)⟩
  rw [← h u hu, hnode]

theorem SameOn.leastOn (h : SameOn c t t') (hclosed : Closed d reachable t)
    (hcomp : ∀ u ∈ c, compiledAt reachable u = true) {E E' : Outcomes V L d}
    (hagree : ∀ v u, u < t.nodes.length → E' v u = E v u) :
    R.LeastOn t' (· ∈ c) E' ↔ R.LeastOn t (· ∈ c) E := by
  have hlive : ∀ u ∈ c, LiveIn reachable t u := fun u hu => .inl (hcomp u hu)
  have hrhs : ∀ (D : Outcomes V L d) v u s, u ∈ c →
      R.rhs t' (E'.override (· ∈ c) D) u v s = R.rhs t (E.override (· ∈ c) D) u v s := fun D v u s hu =>
    hclosed.rhs_eq (override_agree hagree) (h u hu) (hlive u hu) v s
  refine forall_congr' fun D => imp_congr ?_ ?_
  · exact forall₂_congr fun v u => forall₂_congr fun s hu => by rw [hrhs D v u s hu]
  · exact forall₂_congr fun v u => forall₂_congr fun s hu => by rw [hagree v u ((hlive u hu).lt hclosed)]

/-- What the pass is given, and the table it is at. -/
structure Underway (env : LowerEnv) (L : Type) (d : DynamicPlan) (reachable : List Bool) (rest : List (List Nat))
    (t : NodeTable) : Prop where
  closed : Closed d reachable t
  pending : Pending env reachable.length t rest
  compiled : ∀ c ∈ rest, ∀ u ∈ c, compiledAt reachable u = true
  cyclic : ∀ c ∈ rest, cyclic t c = true → Knotted t c ∧ Faithful L d t (· ∈ c)
  never : ∀ e, env.neverEngine = .ok e → e.Empty
  root : d.nodeResources.length = reachable.length

/-- **Component after component**, solutions go over to solutions, both ways. -/
theorem lowerComponents_meaning : ∀ {rest : List (List Nat)} {t t' : NodeTable}, lowerComponents env rest t = .ok t' →
    Underway env L d reachable rest t →
    (∀ E : Outcomes V L d, R.Solves t (LiveIn reachable t) E →
      (∀ c ∈ rest, cyclic t c = true → R.LeastOn t (· ∈ c) E) →
      ∃ E' : Outcomes V L d, (∀ v u, u < t.nodes.length → E' v u = E v u) ∧ R.Solves t' (LiveIn reachable t') E') ∧
    (∀ E' : Outcomes V L d, R.Solves t' (LiveIn reachable t') E' →
      R.Solves t (LiveIn reachable t) E' ∧ ∀ c ∈ rest, cyclic t c = true → R.LeastOn t (· ∈ c) E')
  | [], t, _, h, _ => by
    cases h
    exact ⟨fun E hE _ => ⟨E, fun _ _ _ => rfl, hE⟩, fun E' hE' => ⟨hE', fun _ hc => absurd hc List.not_mem_nil⟩⟩
  | c :: rest, t, t', h, hu => by
    unfold lowerComponents at h
    split at h
    · rename_i hcyc
      obtain ⟨t₁, hlower, h⟩ := bind_ok h
      obtain ⟨⟨hl, hshape⟩, hscan⟩ :=
        lowerPositiveComponent_ok hlower (hu.pending.nodup c List.mem_cons_self) hu.pending.head_lt
      obtain ⟨hknotted, hfaithful⟩ := hu.cyclic c List.mem_cons_self hcyc
      have hat : LoweredAt env L d reachable c rest t t₁ :=
        ⟨hu.closed, hu.pending, hu.compiled c List.mem_cons_self, hl,
        hshape, hscan, hknotted, hfaithful, hu.never, hu.root⟩
      -- The components still to come are as they were.
      have hsame : ∀ c' ∈ rest, SameOn c' t t₁ := fun c' hc' u hu' => hl.frame u
        (Nat.lt_of_lt_of_le (hu.pending.tail.inside c' hc' u hu') hu.pending.le) (hu.pending.not_mem_head hc' hu')
      have hcomp : ∀ c' ∈ rest, ∀ u ∈ c', compiledAt reachable u = true :=
        fun c' hc' => hu.compiled c' (List.mem_cons_of_mem _ hc')
      have hu₁ : Underway env L d reachable rest t₁ := by
        refine ⟨hat.closed', hu.pending.lowered hl, hcomp, fun c' hc' hcyc' => ?_, hu.never, hu.root⟩
        rw [(hsame c' hc').cyclic] at hcyc'
        obtain ⟨hk', hf'⟩ := hu.cyclic c' (List.mem_cons_of_mem _ hc') hcyc'
        exact ⟨(hsame c' hc').knotted hk', (hsame c' hc').faithful hf'⟩
      obtain ⟨hforth, hback⟩ := lowerComponents_meaning h hu₁
      constructor
      · intro E hE hleast
        obtain ⟨E₁, hagree₁, hE₁⟩ := hat.extends_solution hE (hleast c List.mem_cons_self hcyc)
        obtain ⟨E', hagree', hE'⟩ := hforth E₁ hE₁ fun c' hc' hcyc' => by
          rw [(hsame c' hc').cyclic] at hcyc'
          exact ((hsame c' hc').leastOn hu.closed (hcomp c' hc') hagree₁).2
            (hleast c' (List.mem_cons_of_mem _ hc') hcyc')
        refine ⟨E', fun v u hlt => ?_, hE'⟩
        rw [hagree' v u (Nat.lt_of_lt_of_le hlt hl.le), hagree₁ v u hlt]
      · intro E' hE'
        obtain ⟨hE₁, hleast₁⟩ := hback E' hE'
        obtain ⟨hE, hleast⟩ := hat.restricts_solution hE₁
        refine ⟨hE, fun c' hc' hcyc' => ?_⟩
        rcases List.mem_cons.1 hc' with rfl | hc'
        · exact hleast
        · exact ((hsame c' hc').leastOn hu.closed (hcomp c' hc') (fun _ _ _ => rfl)).1
            (hleast₁ c' hc' (by rwa [(hsame c' hc').cyclic]))
    · rename_i hcyc
      have hu₁ : Underway env L d reachable rest t := ⟨hu.closed, hu.pending.tail,
        fun c' hc' => hu.compiled c' (List.mem_cons_of_mem _ hc'), fun c' hc' =>
          hu.cyclic c' (List.mem_cons_of_mem _ hc'),
        hu.never, hu.root⟩
      obtain ⟨hforth, hback⟩ := lowerComponents_meaning h hu₁
      refine ⟨fun E hE hleast => hforth E hE fun c' hc' => hleast c' (List.mem_cons_of_mem _ hc'), fun E' hE' => ?_⟩
      obtain ⟨hE, hleast⟩ := hback E' hE'
      refine ⟨hE, fun c' hc' hcyc' => ?_⟩
      rcases List.mem_cons.1 hc' with rfl | hc'
      · exact absurd hcyc' hcyc
      · exact hleast c' hc' hcyc'

end

/-! ## The pass -/

/-- What `compile` hands to the pass: every node a compiled one names is compiled, and so is every dynamic anchor. -/
structure Compiled (d : DynamicPlan) (reachable : List Bool) (t : NodeTable) : Prop where
  length : t.nodes.length = reachable.length
  resources : d.nodeResources.length = reachable.length
  refs : ∀ u, compiledAt reachable u = true → ∀ b ∈ (t.node u).refs, compiledAt reachable b = true
  bound : ∀ b ∈ d.bindings, compiledAt reachable b.target = true

section
variable {d : DynamicPlan} {reachable : List Bool} {t : NodeTable}

theorem Compiled.closed (h : Compiled d reachable t) : Closed d reachable t := by
  refine ⟨Nat.le_of_eq h.length.symm, fun u hu b hb => ?_, h.bound⟩
  rcases hu with hu | ⟨hlo, hhi⟩
  · exact .inl (h.refs u hu b hb)
  · have := h.length
    omega

theorem Compiled.condensed (h : Compiled d reachable t) :
    Components.Condensed t.children (fun u => u < reachable.length ∧ compiledAt reachable u = true)
      (planComponents t reachable) :=
  planComponents_condensed fun u hu v hv => h.refs u hu v (refs_of_children _ v hv)

theorem Compiled.mem_component (h : Compiled d reachable t) {u : Nat} (hu : compiledAt reachable u = true) :
    ∃ c ∈ planComponents t reachable, u ∈ c := (h.condensed.cover u).1 ⟨lt_of_compiledAt hu, hu⟩

theorem Compiled.compiledAt_of_mem (h : Compiled d reachable t) {c : List Nat} (hc : c ∈ planComponents t reachable) :
    ∀ u ∈ c, compiledAt reachable u = true := fun u hu => ((h.condensed.cover u).2 ⟨c, hc, hu⟩).2

/-- The list the pass finds for a node is the node's component. -/
theorem Compiled.component_eq (h : Compiled d reachable t) {c : List Nat} (hc : c ∈ planComponents t reachable)
    {u : Nat} (hu : u ∈ c) : component t u = (· ∈ c) := by
  funext w
  refine propext ⟨fun hw => h.condensed.between hc hu hu hw.1 hw.2, fun hw => ?_⟩
  exact ⟨h.condensed.connected c hc u hu w hw, h.condensed.connected c hc w hw u hu⟩

/-- In a cyclic component every member applies a member. -/
theorem Compiled.child_of_cyclic (h : Compiled d reachable t) {c : List Nat} (hc : c ∈ planComponents t reachable)
    (hcyc : cyclic t c = true) : ∀ u ∈ c, ∃ w ∈ c, w ∈ t.children u := by
  intro u hu
  by_cases hother : ∃ w ∈ c, w ≠ u
  · obtain ⟨w, hw, hne⟩ := hother
    rcases ReflTransGen.cases_head (h.condensed.inside hc hu hw) with heq | ⟨b, hab, -⟩
    · exact absurd heq.symm hne
    · exact ⟨b, hab.2.1, hab.2.2⟩
  · have hall : ∀ w ∈ c, w = u := fun w hw => by
      by_contra hne
      exact hother ⟨w, hw, hne⟩
    have hnd := h.condensed.nodup c hc
    match c, hcyc, hu, hall, hnd with
    | [only], hcyc, hu, _, _ =>
      rw [List.mem_singleton] at hu
      subst hu
      exact ⟨u, List.mem_singleton_self _, of_decide_eq_true hcyc⟩
    | a :: b :: _, _, _, hall, hnd =>
      have hab : a = b := (hall a List.mem_cons_self).trans (hall b (List.mem_cons_of_mem _ List.mem_cons_self)).symm
      exact absurd (hab ▸ List.mem_cons_self) (List.nodup_cons.1 hnd).1

theorem Compiled.onCycle_iff (h : Compiled d reachable t) {c : List Nat} (hc : c ∈ planComponents t reachable) {u : Nat}
    (hu : u ∈ c) : OnCycle t u ↔ cyclic t c = true := by
  constructor
  · intro hcycle
    obtain ⟨w, hedge, hback⟩ := TransGen.head'_iff.1 hcycle
    exact cyclic_of_mem hu (h.condensed.between hc hu hu (.single hedge) hback) hedge
  · intro hcyc
    obtain ⟨w, hw, hchild⟩ := h.child_of_cyclic hc hcyc u hu
    exact TransGen.head' hchild (h.condensed.connected c hc w hw u hu)

theorem Compiled.knotted (h : Compiled d reachable t) {c : List Nat} (hc : c ∈ planComponents t reachable)
    (hcyc : cyclic t c = true) : Knotted t c :=
  ⟨h.child_of_cyclic hc hcyc, fun _ hu _ hw => h.condensed.inside hc hu hw⟩

theorem Compiled.pending (h : Compiled d reachable t) {env : LowerEnv} (hnever : t.never = none) :
    Pending env reachable.length t (planComponents t reachable) := by
  refine ⟨Nat.le_of_eq h.length.symm, fun c hc u hu => lt_of_compiledAt (h.compiledAt_of_mem hc u hu),
    h.condensed.nodup, h.condensed.disjoint, h.condensed.forward, fun k hk => ?_⟩
  rw [hnever] at hk
  cases hk

end

theorem not_onCycle_of_acc {t : NodeTable} {u : Nat} (h : Acc (AppliedBy t) u) : ¬ OnCycle t u := by
  induction h with
  | intro u _ ih =>
    intro hcycle
    obtain ⟨w, hedge, hback⟩ := TransGen.head'_iff.1 hcycle
    exact ih w hedge (TransGen.tail' hback hedge)

/-- Every component the pass lowers is made of references, unions and intersections. -/
theorem lowerComponents_positive {env : LowerEnv} {n : Nat} : ∀ {rest : List (List Nat)} {t t' : NodeTable},
    lowerComponents env rest t = .ok t' → Pending env n t rest →
      ∀ c ∈ rest, cyclic t c = true → ∀ u ∈ c, Positive (t.node u)
  | [], _, _, _, _ => fun _ hc => absurd hc List.not_mem_nil
  | c :: rest, t, t', h, hp => by
    unfold lowerComponents at h
    intro c' hc' hcyc' u hu
    split at h
    · obtain ⟨t₁, hlower, h⟩ := bind_ok h
      obtain ⟨⟨hl, -⟩, hscan⟩ := lowerPositiveComponent_ok hlower (hp.nodup c List.mem_cons_self) hp.head_lt
      rcases List.mem_cons.1 hc' with rfl | hc'
      · obtain ⟨flags, hflags⟩ := hscan u hu
        exact positive_of_scanNode hflags
      · have hsame : SameOn c' t t₁ := fun w hw => hl.frame w
          (Nat.lt_of_lt_of_le (hp.tail.inside c' hc' w hw) hp.le) (hp.not_mem_head hc' hw)
        have := lowerComponents_positive h (hp.lowered hl) c' hc' (by rwa [hsame.cyclic]) u hu
        rwa [hsame u hu] at this
    · rename_i hcyc
      rcases List.mem_cons.1 hc' with rfl | hc'
      · exact absurd hcyc' hcyc
      · exact lowerComponents_positive h hp.tail c' hc' hcyc' u hu

theorem resolveSameInstanceCycles_lowers {env : LowerEnv} {reachable : List Bool} {nodes : List NodePlan}
    {retainedBytes : Nat} {t' : NodeTable} (h : resolveSameInstanceCycles env reachable nodes retainedBytes = .ok t') :
    lowerComponents env (planComponents ⟨nodes, retainedBytes, none⟩ reachable) ⟨nodes, retainedBytes, none⟩ =
    .ok t' := by
  unfold resolveSameInstanceCycles at h
  obtain ⟨-, -, h⟩ := bind_ok h
  dsimp only at h
  split at h
  · cases h
  · split at h
    · cases h
    · exact h

/-- A plan meets the condition when each of its cyclic components does. -/
def FaithfulPlan (L : Type) (d : DynamicPlan) (reachable : List Bool) (t : NodeTable) : Prop :=
  ∀ u, compiledAt reachable u = true → OnCycle t u → Faithful L d t (component t u)

/-- **Resolving same-instance cycles.**  No cycle is left; a cycle through anything but references, unions and
intersections was refused; and where every cyclic component is faithful, each meaning of the plan is one of the plan
returned, and each of those is a meaning of the plan. -/
theorem resolveSameInstanceCycles_correct {env : LowerEnv} {d : DynamicPlan} {reachable : List Bool}
    {nodes : List NodePlan} {retainedBytes : Nat} {t' : NodeTable}
    (hcompiled : Compiled d reachable ⟨nodes, retainedBytes, none⟩) (hnever : ∀ e, env.neverEngine = .ok e → e.Empty)
    (h : resolveSameInstanceCycles env reachable nodes retainedBytes = .ok t') :
    (∀ u, LiveIn reachable t' u → ¬ OnCycle t' u) ∧
    (∀ u, compiledAt reachable u = true → OnCycle ⟨nodes, retainedBytes, none⟩ u →
      ∀ w, component ⟨nodes, retainedBytes, none⟩ u w → Positive (NodeTable.node ⟨nodes, retainedBytes, none⟩ w)) ∧
    ∀ (V L : Type) (R : Reading V L d), FaithfulPlan L d reachable ⟨nodes, retainedBytes, none⟩ →
      (∀ E, R.Meaning ⟨nodes, retainedBytes, none⟩ (fun u => compiledAt reachable u = true) E →
        ∃ E', R.Meaning t' (LiveIn reachable t') E' ∧ ∀ v u, compiledAt reachable u = true → E' v u = E v u) ∧
      (∀ E', R.Meaning t' (LiveIn reachable t') E' →
        R.Meaning ⟨nodes, retainedBytes, none⟩ (fun u => compiledAt reachable u = true) E') := by
  have hlower := resolveSameInstanceCycles_lowers h
  generalize ht : (⟨nodes, retainedBytes, none⟩ : NodeTable) = t at hcompiled hlower ⊢
  have hpending : Pending env reachable.length t (planComponents t reachable) :=
    hcompiled.pending (by rw [← ht])
  have hacc := lowerComponents_acc hlower hpending
  have hacyclic : ∀ u, LiveIn reachable t' u → ¬ OnCycle t' u := by
    intro u hu
    refine not_onCycle_of_acc ?_
    rcases hu with hu | ⟨hlo, hhi⟩
    · obtain ⟨c, hc, hmem⟩ := hcompiled.mem_component hu
      exact hacc.1 c hc u hmem
    · exact hacc.2 u (by rw [hcompiled.length]; exact hlo) hhi
  have hpositive : ∀ u, compiledAt reachable u = true → OnCycle t u → ∀ w, component t u w → Positive (t.node w) := by
    intro u hu hcycle w hw
    obtain ⟨c, hc, hmem⟩ := hcompiled.mem_component hu
    rw [hcompiled.component_eq hc hmem] at hw
    exact lowerComponents_positive hlower hpending c hc ((hcompiled.onCycle_iff hc hmem).1 hcycle) w hw
  refine ⟨hacyclic, hpositive, fun V L R hfaithful => ?_⟩
  have hunderway : Underway env L d reachable (planComponents t reachable) t := by
    refine ⟨hcompiled.closed, hpending, fun c hc => hcompiled.compiledAt_of_mem hc, fun c hc hcyc => ?_, hnever,
      hcompiled.resources⟩
    obtain ⟨u, hu⟩ := List.exists_mem_of_ne_nil c (hcompiled.condensed.nonempty c hc)
    have hf := hfaithful u (hcompiled.compiledAt_of_mem hc u hu) ((hcompiled.onCycle_iff hc hu).2 hcyc)
    rw [hcompiled.component_eq hc hu] at hf
    exact ⟨hcompiled.knotted hc hcyc, hf⟩
  obtain ⟨hforth, hback⟩ := lowerComponents_meaning (R := R) hlower hunderway
  -- Before the pass the live nodes are the compiled ones.
  have hlive : ∀ u, LiveIn reachable t u ↔ compiledAt reachable u = true := by
    refine fun u => ⟨fun hu => hu.resolve_right fun ⟨hlo, hhi⟩ => ?_, .inl⟩
    have := hcompiled.length
    omega
  constructor
  · intro E hE
    obtain ⟨E', hagree, hE'⟩ := hforth E (fun v u s hu => hE.solves v u s ((hlive u).1 hu)) fun c hc hcyc => by
      obtain ⟨u, hu⟩ := List.exists_mem_of_ne_nil c (hcompiled.condensed.nonempty c hc)
      have hu' := hcompiled.compiledAt_of_mem hc u hu
      have hcycle := (hcompiled.onCycle_iff hc hu).2 hcyc
      have := hE.least u hu' hcycle (hpositive u hu' hcycle)
      rwa [hcompiled.component_eq hc hu] at this
    refine ⟨E', ⟨hE', fun u hu hcycle => absurd hcycle (hacyclic u hu)⟩, fun v u hu => hagree v u ?_⟩
    rw [hcompiled.length]
    exact lt_of_compiledAt hu
  · intro E' hE'
    obtain ⟨hsolves, hleast⟩ := hback E' hE'.solves
    refine ⟨fun v u s hu => hsolves v u s ((hlive u).2 hu), fun u hu hcycle _ => ?_⟩
    obtain ⟨c, hc, hmem⟩ := hcompiled.mem_component hu
    rw [hcompiled.component_eq hc hmem]
    exact hleast c hc ((hcompiled.onCycle_iff hc hmem).1 hcycle)

/-! ## A component that mixes unions and intersections -/

/-- The engine of `[^\x00-\xff]`: the dead state alone. -/
def emptyEngineData : EngineData where
  rowOffsets := [0, 0]
  edges := []
  accepting := [false]
  residualCardinality := [0]
  liveClasses := [0]
  classTable := ⟨[(List.range 256).map UInt8.ofNat], fun _ => 0⟩
  classCount := 1
  stateCount := 1
  start := 0

theorem emptyEngineData_wf : emptyEngineData.Wf where
  rows := rfl
  sorted := by decide
  targets := by decide
  deadRow := rfl
  acceptingLen := rfl
  deadRejects := rfl
  liveLen := rfl
  live := by
    intro s m hm c
    cases s with
    | zero =>
      cases hm
      simp [emptyEngineData, EngineData.row, CountingSort.slice]
    | succ n => cases hm
  classes := rfl
  classOf := fun _ => Nat.zero_lt_one
  members := by
    intro c bs hbs b
    cases c with
    | zero =>
      cases hbs
      exact iff_of_true (mem_every b) rfl
    | succ n => cases hbs
  classCap := by decide
  startLt := by decide

def emptyEngine : RefEngine := ⟨emptyEngineData, emptyEngineData_wf⟩

theorem emptyEngine_empty : emptyEngine.Empty := by
  intro w
  cases w with
  | nil => rfl
  | cons b w => rfl

def roomyEnv : LowerEnv := ⟨2 ^ 20, fun _ => 0, .ok emptyEngine, fun _ => 64⟩

theorem roomyEnv_never : ∀ e, roomyEnv.neverEngine = .ok e → e.Empty := by
  intro e he
  cases he
  exact emptyEngine_empty

/-- `a = anyOf [\"a\", b]` and `b = allOf [a, \"b\"]`. -/
def mixedNodes : List NodePlan :=
  [.combinator ⟨.any, [2, 1]⟩, .combinator ⟨.all, [0, 3]⟩, .stringEnum ⟨[[97]]⟩, .stringEnum ⟨[[98]]⟩]

def staticPlan : DynamicPlan := ⟨false, 0, [0, 0, 0, 0], [], []⟩

theorem mixedNodes_compiled : Compiled staticPlan [true, true, true, true] ⟨mixedNodes, 0, none⟩ := by
  refine ⟨rfl, rfl, fun u hu => ?_, fun b hb => absurd hb List.not_mem_nil⟩
  match u, hu with
  | 0, _ => decide
  | 1, _ => decide
  | 2, _ => decide
  | 3, _ => decide

/-- The verdicts of the mixed component come through its two rounds. -/
theorem resolveSameInstanceCycles_mixed :
    ∃ t', resolveSameInstanceCycles roomyEnv [true, true, true, true] mixedNodes 0 = .ok t' ∧
      t'.node 0 = .ref 7 ∧ ¬ OnCycle t' 0 ∧
      ∀ R : Reading (List Byte) Empty staticPlan, ∀ E', R.Meaning t' (LiveIn [true, true, true, true] t') E' →
        R.Meaning ⟨mixedNodes, 0, none⟩ (fun u => compiledAt [true, true, true, true] u = true) E' := by
  obtain ⟨t', h, hnode⟩ : ∃ t', resolveSameInstanceCycles roomyEnv [true, true, true, true] mixedNodes 0 = .ok t' ∧
      t'.node 0 = .ref 7 := ⟨_, rfl, rfl⟩
  obtain ⟨hacyclic, -, hmeaning⟩ := resolveSameInstanceCycles_correct mixedNodes_compiled roomyEnv_never h
  refine ⟨t', h, hnode, hacyclic 0 (.inl rfl),
    fun R => (hmeaning _ _ R fun u _ _ => ⟨fun w _ i a hnode => ?_, nofun, ?_⟩).2⟩
  · match w, hnode with
    | n + 4, hnode => cases hnode
  · exact fun _ _ => inferInstance

/-! ## A dynamic reference inside a cycle -/

/-- The strings a node of engines and string members reads; no locations. -/
def textReading (d : DynamicPlan) : Reading (List Byte) Empty d where
  consume node _ v _ := match node with
    | .regular e => { x | x = none ∧ e.accepts v = true }
    | .stringEnum plan => { x | x = none ∧ v ∈ plan.members }
    | _ => ∅
  named _ _ _ _ := rfl
  empty e _ v _ h := Set.eq_empty_of_forall_notMem fun _ hx => by
    have := hx.2
    rw [h v] at this
    cases this

/-- `inner = anyOf [$dynamicRef n, \"a\"]`, where `n` is `inner` itself in its own resource and `\"b\"`
in the root's. -/
def reboundNodes : List NodePlan :=
  [.combinator ⟨.any, [1, 2]⟩, .dynamicRef 0 0, .stringEnum ⟨[[97]]⟩, .stringEnum ⟨[[98]]⟩, .ref 0]

def reboundPlan : DynamicPlan := ⟨true, 0, [1, 1, 1, 0, 0], [some 0], [⟨0, 0, 3⟩, ⟨0, 1, 0⟩]⟩

/-- What the plan accepts in every scope that starts at the root. -/
def reboundOutcomes : Outcomes (List Byte) Empty reboundPlan := fun v u _ =>
  { x | x = none ∧ match u with
    | 0 | 4 => v = [98] ∨ v = [97]
    | 2 => v = [97]
    | 1 | 3 => v = [98]
    | _ => False }

theorem reboundPlan_resolve (s : reboundPlan.Rooted) : reboundPlan.resolve 0 0 s.1 = 3 := by
  obtain ⟨s, hs⟩ := s
  cases s with
  | nil => cases hs
  | cons r s =>
    cases hs
    rfl

theorem reboundNodes_compiled : Compiled reboundPlan [true, true, true, true, true] ⟨reboundNodes, 0, none⟩ := by
  refine ⟨rfl, rfl, fun u hu => ?_, by decide⟩
  match u, hu with
  | 0, _ => decide
  | 1, _ => decide
  | 2, _ => decide
  | 3, _ => decide
  | 4, _ => decide

theorem reboundOutcomes_meaning : (textReading reboundPlan).Meaning ⟨reboundNodes, 0, none⟩
    (fun u => compiledAt [true, true, true, true, true] u = true) reboundOutcomes := by
  constructor
  · intro v u s hu
    match u, hu with
    | 0, _ =>
      ext x
      constructor
      · rintro ⟨rfl, h | h⟩
        · exact ⟨1, by decide, rfl, h⟩
        · exact ⟨2, by decide, rfl, h⟩
      · rintro ⟨b, hb, hx⟩
        have hb' : b = 1 ∨ b = 2 := by simpa using hb
        rcases hb' with rfl | rfl
        · exact ⟨hx.1, .inl hx.2⟩
        · exact ⟨hx.1, .inr hx.2⟩
    | 1, _ =>
      show _ = reboundOutcomes v (reboundPlan.resolve 0 0 (reboundPlan.enterNode s 1).1) s
      rw [reboundPlan_resolve]
      rfl
    | 2, _ =>
      ext x
      exact and_congr_right fun _ => List.mem_singleton.symm
    | 3, _ =>
      ext x
      exact and_congr_right fun _ => List.mem_singleton.symm
    | 4, _ => rfl
  · -- Once the reference is resolved nothing is cyclic, so anything closed under the equations has these outcomes.
    intro u _ _ _ D hD
    have hin : ∀ v w s, (component ⟨reboundNodes, 0, none⟩ u w → reboundOutcomes v w s ⊆ D v w s) →
        reboundOutcomes v w s ⊆ reboundOutcomes.override (component ⟨reboundNodes, 0, none⟩ u) D v w s := by
      intro v w s h
      unfold Outcomes.override
      split
      · exact h ‹_›
      · exact Set.Subset.refl _
    have h2 : ∀ v s, component ⟨reboundNodes, 0, none⟩ u 2 → reboundOutcomes v 2 s ⊆ D v 2 s :=
      fun v s hC x hx => hD v 2 s hC ⟨hx.1, List.mem_singleton.2 hx.2⟩
    have h3 : ∀ v s, component ⟨reboundNodes, 0, none⟩ u 3 → reboundOutcomes v 3 s ⊆ D v 3 s :=
      fun v s hC x hx => hD v 3 s hC ⟨hx.1, List.mem_singleton.2 hx.2⟩
    have h1 : ∀ v s, component ⟨reboundNodes, 0, none⟩ u 1 → reboundOutcomes v 1 s ⊆ D v 1 s := by
      intro v s hC x hx
      refine hD v 1 s hC ?_
      show x ∈ reboundOutcomes.override (component ⟨reboundNodes, 0, none⟩ u) D v
        (reboundPlan.resolve 0 0 (reboundPlan.enterNode s 1).1) (reboundPlan.enterNode s 1)
      rw [reboundPlan_resolve]
      exact hin v 3 _ (h3 v _) hx
    have h0 : ∀ v s, component ⟨reboundNodes, 0, none⟩ u 0 → reboundOutcomes v 0 s ⊆ D v 0 s := by
      rintro v s hC x ⟨hx, h | h⟩
      · exact hD v 0 s hC ⟨1, by decide, hin v 1 _ (h1 v _) ⟨hx, h⟩⟩
      · exact hD v 0 s hC ⟨2, by decide, hin v 2 _ (h2 v _) ⟨hx, h⟩⟩
    intro v w s hw
    match w, hw with
    | 0, hw => exact h0 v s hw
    | 1, hw => exact h1 v s hw
    | 2, hw => exact h2 v s hw
    | 3, hw => exact h3 v s hw
    | 4, hw => exact fun x hx => hD v 4 s hw (hin v 0 _ (h0 v _) hx)
    | n + 5, _ => exact fun x hx => hx.2.elim

/-- **A rebound dynamic reference is frozen by lowering**: the plan accepts `\"b\"`, the plan returned does not. -/
theorem resolveSameInstanceCycles_freezes :
    Compiled reboundPlan [true, true, true, true, true] ⟨reboundNodes, 0, none⟩ ∧
    ∃ t', resolveSameInstanceCycles roomyEnv [true, true, true, true, true] reboundNodes 0 = .ok t' ∧
      ∃ (R : Reading (List Byte) Empty reboundPlan) (E : Outcomes (List Byte) Empty reboundPlan),
        R.Meaning ⟨reboundNodes, 0, none⟩ (fun u => compiledAt [true, true, true, true, true] u = true) E ∧
        ∀ E', R.Meaning t' (LiveIn [true, true, true, true, true] t') E' →
          none ∈ E [98] 4 ⟨[0], rfl⟩ ∧ none ∉ E' [98] 4 ⟨[0], rfl⟩ := by
  obtain ⟨t', h, h0, h2, h4⟩ : ∃ t', resolveSameInstanceCycles roomyEnv [true, true, true, true, true] reboundNodes 0 =
      .ok t' ∧ t'.node 0 = .ref 2 ∧ t'.node 2 = .stringEnum ⟨[[97]]⟩ ∧ t'.node 4 = .ref 0 := ⟨_, rfl, rfl, rfl, rfl⟩
  refine ⟨reboundNodes_compiled, t', h, textReading reboundPlan, reboundOutcomes, reboundOutcomes_meaning,
    fun E' hE' => ⟨⟨rfl, .inl rfl⟩, fun hacc => ?_⟩⟩
  rw [hE'.solves _ 4 _ (.inl rfl)] at hacc
  unfold Reading.rhs at hacc
  rw [h4] at hacc
  change none ∈ E' [98] 0 _ at hacc
  rw [hE'.solves _ 0 _ (.inl rfl)] at hacc
  unfold Reading.rhs at hacc
  rw [h0] at hacc
  change none ∈ E' [98] 2 _ at hacc
  rw [hE'.solves _ 2 _ (.inl rfl)] at hacc
  unfold Reading.rhs at hacc
  rw [h2] at hacc
  exact absurd hacc.2 (by decide)

end MaskForge
