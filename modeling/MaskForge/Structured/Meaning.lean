import MaskForge.Structured.Cycles
/-!
# Meaning — what the nodes of a plan accept, and what they evaluate

A node's outcome on a value is the set of what it reports: `none` when it accepts the value, and the locations it has
evaluated.  The in-place nodes are read by their own rules; how a consuming node reads a value is a parameter, a
`Reading`, of which only two things are asked: it looks at no node but those the plan names, and a regular node whose
engine accepts nothing reports nothing.

A plan is a system of equations between outcomes.  `Meaning` is a solution of it that is the least one on every
component the same-instance edges close into a cycle.
-/
namespace MaskForge

/-- A dynamic scope that started at the root. -/
abbrev DynamicPlan.Rooted (d : DynamicPlan) : Type := { s : DynamicPlan.Scope // s.head? = some d.rootResource }

/-- Coming to a node enters its resource. -/
def DynamicPlan.enterNode (d : DynamicPlan) (s : d.Rooted) (node : Nat) : d.Rooted :=
  if d.enabled then ⟨DynamicPlan.enter s.1 (d.nodeResource node), DynamicPlan.head?_enter _ s.2⟩ else s

theorem DynamicPlan.enterNode_twice (d : DynamicPlan) (s : d.Rooted) {u w : Nat}
    (h : d.enabled = true → d.nodeResource u = d.nodeResource w) :
    d.enterNode (d.enterNode s u) w = d.enterNode s u := by
  unfold DynamicPlan.enterNode
  split
  · rename_i he
    apply Subtype.ext
    simp only [← h he]
    exact DynamicPlan.enter_idem _ _
  · rfl

theorem DynamicPlan.enterNode_root (d : DynamicPlan) (s : d.Rooted) {u : Nat} (h : d.nodeResource u = d.rootResource) :
    d.enterNode s u = s := by
  unfold DynamicPlan.enterNode
  split
  · apply Subtype.ext
    simp only [h]
    exact DynamicPlan.enter_of_mem (List.mem_of_mem_head? s.2)
  · rfl

/-- What every node reports on every value in every dynamic scope. -/
abbrev Outcomes (V L : Type) (d : DynamicPlan) : Type := V → Nat → d.Rooted → Set (Option L)

/-- The engine takes no word. -/
def RefEngine.Empty (e : RefEngine) : Prop := ∀ w, e.accepts w = false

/-- How consuming nodes read a value. -/
structure Reading (V L : Type) (d : DynamicPlan) where
  consume : NodePlan → Outcomes V L d → V → d.Rooted → Set (Option L)
  named : ∀ node E E', (∀ v, ∀ u ∈ node.refs, E v u = E' v u) → consume node E = consume node E'
  empty : ∀ e E v s, RefEngine.Empty e → consume (.regular e) E v s = ∅

section
variable {V L : Type} {d : DynamicPlan}

/-- A node applied to a value, once its resource is entered. -/
def Reading.apply (R : Reading V L d) (node : NodePlan) (E : Outcomes V L d) (v : V) (s : d.Rooted) : Set (Option L) :=
  match node with
  | .ref target => E v target s
  | .dynamicRef initialTarget anchor => E v (d.resolve initialTarget anchor s.1) s
  | .combinator ⟨.any, branches⟩ => { x | ∃ b ∈ branches, x ∈ E v b s }
  | .combinator ⟨.all, branches⟩ =>
    { x | (∀ b ∈ branches, none ∈ E v b s) ∧ (x = none ∨ ∃ b ∈ branches, x ∈ E v b s) }
  | .combinator ⟨.exactlyOne, branches⟩ =>
    { x | ∃ pre b post, branches = pre ++ b :: post ∧ none ∈ E v b s ∧ (∀ b' ∈ pre ++ post, none ∉ E v b' s) ∧
      x ∈ E v b s }
  | .negation inner => { x | x = none ∧ none ∉ E v inner s }
  | .regular _ | .object _ | .array _ | .string _ | .stringEnum _ | .number _ _ | .unevaluated _ | .unsupported =>
    R.consume node E v s

/-- The right-hand side of a node's equation. -/
def Reading.rhs (R : Reading V L d) (t : NodeTable) (E : Outcomes V L d) (u : Nat) (v : V) (s : d.Rooted) :
    Set (Option L) :=
  R.apply (t.node u) E v (d.enterNode s u)

open Classical in
/-- Outcomes replaced on a set of nodes. -/
noncomputable def Outcomes.override (E : Outcomes V L d) (C : Nat → Prop) (D : Outcomes V L d) : Outcomes V L d :=
  fun v u => if C u then D v u else E v u

/-- No outcomes closed under a component's equations are smaller there. -/
def Reading.LeastOn (R : Reading V L d) (t : NodeTable) (C : Nat → Prop) (E : Outcomes V L d) : Prop :=
  ∀ D : Outcomes V L d, (∀ v u s, C u → R.rhs t (E.override C D) u v s ⊆ D v u s) → ∀ v u s, C u → E v u s ⊆ D v u s

def Reading.Solves (R : Reading V L d) (t : NodeTable) (live : Nat → Prop) (E : Outcomes V L d) : Prop :=
  ∀ v u s, live u → E v u s = R.rhs t E u v s

/-- The nodes a node reaches and is reached from, by same-instance edges. -/
def component (t : NodeTable) (u w : Nat) : Prop :=
  Components.Reach t.children u w ∧ Components.Reach t.children w u

def OnCycle (t : NodeTable) (u : Nat) : Prop := Relation.TransGen (Components.Edge t.children) u u

/-- The operators a cycle may go through. -/
def Positive : NodePlan → Prop
  | .ref _ | .dynamicRef _ _ | .combinator ⟨.any, _⟩ | .combinator ⟨.all, _⟩ => True
  | _ => False

/-- **The meaning of a plan**: a solution of its equations, least on every cycle of positive operators. -/
structure Reading.Meaning (R : Reading V L d) (t : NodeTable) (live : Nat → Prop) (E : Outcomes V L d) : Prop where
  solves : R.Solves t live E
  least : ∀ u, live u → OnCycle t u → (∀ w, component t u w → Positive (t.node w)) → R.LeastOn t (component t u) E

end
end MaskForge
