import MaskForge.Structured.CycleShape
/-!
# CycleRun — the pass over the components

The components come listed along the edges.  A member of one that was lowered, and every node made for it, applies only
nodes of later components, nodes made earlier for the same component, and the node that accepts nothing; so what the
pass leaves has no cycle.
-/
namespace MaskForge
open NodeTable

/-! ## The checks before the pass -/

theorem lt_of_compiledAt {reachable : List Bool} {u : Nat} (h : compiledAt reachable u = true) :
    u < reachable.length := by
  by_contra hu
  unfold compiledAt at h
  rw [List.getElem?_eq_none (Nat.not_lt.1 hu)] at h
  cases h

theorem mem_reverseEdges {t : NodeTable} {reachable : List Bool} {v u : Nat} :
    (v, u) ∈ reverseEdges t reachable ↔ compiledAt reachable u = true ∧ v ∈ t.children u := by
  unfold reverseEdges
  rw [List.mem_flatMap]
  constructor
  · rintro ⟨index, -, h⟩
    split at h
    · rename_i hc
      obtain ⟨target, ht, heq⟩ := List.mem_map.1 h
      cases heq
      exact ⟨hc, ht⟩
    · cases h
  · rintro ⟨hc, hv⟩
    refine ⟨u, List.mem_range.2 (lt_of_compiledAt hc), ?_⟩
    rw [if_pos hc]
    exact List.mem_map.2 ⟨v, hv, rfl⟩

/-- **The row of a node lists the nodes that apply it.** -/
theorem mem_reverseRow {t : NodeTable} {reachable : List Bool}
    (h : ∀ u, compiledAt reachable u = true → ∀ v ∈ t.children u, compiledAt reachable v = true) (v u : Nat) :
    u ∈ reverseRow t reachable v ↔
      (u < reachable.length ∧ compiledAt reachable u = true) ∧ Components.Edge t.children u v := by
  have hkeys : ∀ x ∈ reverseEdges t reachable, x.1 < reachable.length := fun x hx =>
    lt_of_compiledAt (h x.2 (mem_reverseEdges.1 hx).1 x.1 (mem_reverseEdges.1 hx).2)
  have hbucket : u ∈ CountingSort.bucket (reverseEdges t reachable) v ↔
      compiledAt reachable u = true ∧ v ∈ t.children u := by
    rw [← mem_reverseEdges]
    unfold CountingSort.bucket
    simp
  unfold reverseRow
  by_cases hv : v < reachable.length
  · rw [CountingSort.scatter_row 0 _ _ hkeys v hv, hbucket]
    exact ⟨fun ⟨h1, h2⟩ => ⟨⟨lt_of_compiledAt h1, h1⟩, h2⟩, fun ⟨⟨_, h1⟩, h2⟩ => ⟨h1, h2⟩⟩
  · have hslice : CountingSort.slice (CountingSort.scatter 0 reachable.length (reverseEdges t reachable)).out
        (CountingSort.offset (reverseEdges t reachable) v) (CountingSort.offset (reverseEdges t reachable) (v + 1)) =
        [] := by
      have hall := fun m (hm : reachable.length ≤ m) => CountingSort.offset_all (reverseEdges t reachable) m
        (fun x hx => Nat.lt_of_lt_of_le (hkeys x hx) hm)
      unfold CountingSort.slice
      rw [hall v (Nat.not_lt.1 hv), hall (v + 1) (Nat.le_succ_of_le (Nat.not_lt.1 hv)), Nat.sub_self, List.take_zero]
    rw [hslice]
    constructor
    · intro hmem
      cases hmem
    · rintro ⟨⟨-, hc⟩, hedge⟩
      exact absurd (lt_of_compiledAt (h u hc v hedge)) hv

/-- The components of a table whose edges stay among its compiled nodes. -/
theorem planComponents_condensed {t : NodeTable} {reachable : List Bool}
    (h : ∀ u, compiledAt reachable u = true → ∀ v ∈ t.children u, compiledAt reachable v = true) :
    Components.Condensed t.children (fun u => u < reachable.length ∧ compiledAt reachable u = true)
      (planComponents t reachable) :=
  Components.components_spec (fun u _ hc v hv => ⟨lt_of_compiledAt (h u hc v hv), h u hc v hv⟩) (mem_reverseRow h)

/-! ## Component after component -/

/-- The components still to come, over the table as it stands; `n` counts the compiled nodes. -/
structure Pending (env : LowerEnv) (n : Nat) (t : NodeTable) (rest : List (List Nat)) : Prop where
  le : n ≤ t.nodes.length
  inside : ∀ c ∈ rest, ∀ u ∈ c, u < n
  nodup : ∀ c ∈ rest, c.Nodup
  disjoint : rest.Pairwise (fun c c' => ∀ x ∈ c, x ∉ c')
  forward : ∀ pre c post, rest = pre ++ c :: post → ∀ u ∈ c, ∀ v ∈ t.children u, v ∈ c ∨ ∃ c' ∈ post, v ∈ c'
  never : ∀ k, t.never = some k → n ≤ k ∧ k < t.nodes.length ∧ IsNever env (t.node k)

namespace Pending
variable {env : LowerEnv} {n : Nat} {t t' : NodeTable} {c : List Nat} {rest : List (List Nat)}

theorem tail (h : Pending env n t (c :: rest)) : Pending env n t rest :=
  ⟨h.le, fun c' hc' => h.inside c' (List.mem_cons_of_mem _ hc'), fun c' hc' => h.nodup c' (List.mem_cons_of_mem _ hc'),
    h.disjoint.of_cons, fun pre c' post hrest => h.forward (c :: pre) c' post (by rw [hrest]; rfl), h.never⟩

theorem head_lt (h : Pending env n t (c :: rest)) : ∀ u ∈ c, u < t.nodes.length :=
  fun u hu => Nat.lt_of_lt_of_le (h.inside c List.mem_cons_self u hu) h.le

theorem not_mem_head (h : Pending env n t (c :: rest)) {c' : List Nat} (hc' : c' ∈ rest) {u : Nat} (hu : u ∈ c') :
    u ∉ c :=
  fun hmem => (List.pairwise_cons.1 h.disjoint).1 c' hc' u hmem hu

/-- A component is lowered; the rest see the table they saw before. -/
theorem lowered (h : Pending env n t (c :: rest)) (hl : Lowered env c t t') : Pending env n t' rest := by
  have htail := h.tail
  refine ⟨Nat.le_trans h.le hl.le, htail.inside, htail.nodup, htail.disjoint, fun pre c' post hrest u hu v hv => ?_, ?_⟩
  · have hc' : c' ∈ rest := by
      rw [hrest]
      exact List.mem_append_right _ List.mem_cons_self
    have hnode : t'.node u = t.node u :=
      hl.frame u (Nat.lt_of_lt_of_le (htail.inside c' hc' u hu) h.le) (h.not_mem_head hc' hu)
    unfold NodeTable.children at hv
    rw [hnode] at hv
    exact htail.forward pre c' post hrest u hu v hv
  · intro k hk
    rcases hl.never k hk with hold | ⟨h1, h2, h3⟩
    · obtain ⟨h1, h2, h3⟩ := h.never k hold
      have hframe := hl.frame k h2 (fun hmem => Nat.not_lt.2 h1 (h.inside c List.mem_cons_self k hmem))
      exact ⟨h1, Nat.lt_of_lt_of_le h2 hl.le, by rwa [hframe]⟩
    · exact ⟨Nat.le_trans h.le h1, h2, h3⟩

/-- A branch that leaves the first component is in a later one. -/
theorem external (h : Pending env n t (c :: rest)) {b : Nat} (hb : External t c b) : ∃ c' ∈ rest, b ∈ c' := by
  obtain ⟨u, hu, hv, hmem⟩ := hb
  exact (h.forward [] c rest rfl u hu b hv).resolve_left hmem

end Pending

/-- What is in no pending component keeps its node. -/
theorem lowerComponents_frame {env : LowerEnv} {n : Nat} : ∀ {rest : List (List Nat)} {t t' : NodeTable},
    lowerComponents env rest t = .ok t' → Pending env n t rest → t.nodes.length ≤ t'.nodes.length ∧
      ∀ u, u < t.nodes.length → (∀ c ∈ rest, u ∉ c) → t'.node u = t.node u
  | [], t, _, h, _ => by
    cases h
    exact ⟨Nat.le_refl _, fun _ _ _ => rfl⟩
  | c :: rest, t, t', h, hp => by
    unfold lowerComponents at h
    split at h
    · obtain ⟨t₁, hlower, h⟩ := bind_ok h
      obtain ⟨⟨hl, -⟩, -⟩ := lowerPositiveComponent_ok hlower (hp.nodup c List.mem_cons_self) hp.head_lt
      obtain ⟨hle, hframe⟩ := lowerComponents_frame h (hp.lowered hl)
      refine ⟨Nat.le_trans hl.le hle, fun u hu hmem => ?_⟩
      rw [hframe u (Nat.lt_of_lt_of_le hu hl.le) (fun c' hc' => hmem c' (List.mem_cons_of_mem _ hc'))]
      exact hl.frame u hu (hmem c List.mem_cons_self)
    · obtain ⟨hle, hframe⟩ := lowerComponents_frame h hp.tail
      exact ⟨hle, fun u hu hmem => hframe u hu (fun c' hc' => hmem c' (List.mem_cons_of_mem _ hc'))⟩

/-- `v` is applied by `u`, in place. -/
def AppliedBy (t : NodeTable) (v u : Nat) : Prop := v ∈ t.children u

theorem acc_of_never {env : LowerEnv} {t : NodeTable} {k : Nat} (h : IsNever env (t.node k)) : Acc (AppliedBy t) k := by
  obtain ⟨e, -, hnode⟩ := h
  refine Acc.intro k fun v hv => ?_
  unfold AppliedBy NodeTable.children at hv
  rw [hnode] at hv
  cases hv

theorem cyclic_of_mem {t : NodeTable} {c : List Nat} {u v : Nat} (hu : u ∈ c) (hv : v ∈ c) (hchild : v ∈ t.children u) :
    cyclic t c = true := by
  unfold cyclic
  split
  · rename_i only
    rw [List.mem_singleton.1 hu, List.mem_singleton.1 hv] at hchild
    exact decide_eq_true hchild
  · rfl

/-- **The pass leaves no way to apply nodes in place for ever.** -/
theorem lowerComponents_acc {env : LowerEnv} {n : Nat} : ∀ {rest : List (List Nat)} {t t' : NodeTable},
    lowerComponents env rest t = .ok t' → Pending env n t rest →
      (∀ c ∈ rest, ∀ u ∈ c, Acc (AppliedBy t') u) ∧ ∀ u, t.nodes.length ≤ u → u < t'.nodes.length → Acc (AppliedBy t') u
  | [], t, _, h, _ => by
    cases h
    exact ⟨fun _ hc => absurd hc List.not_mem_nil, fun u hlo hhi => absurd hhi (Nat.not_lt.2 hlo)⟩
  | c :: rest, t, t', h, hp => by
    unfold lowerComponents at h
    split at h
    · obtain ⟨t₁, hlower, h⟩ := bind_ok h
      obtain ⟨⟨hl, -⟩, -⟩ := lowerPositiveComponent_ok hlower (hp.nodup c List.mem_cons_self) hp.head_lt
      have hp₁ := hp.lowered hl
      obtain ⟨hle, hframe⟩ := lowerComponents_frame h hp₁
      obtain ⟨hrest, hfresh⟩ := lowerComponents_acc h hp₁
      have hkeep : ∀ u, n ≤ u → u < t₁.nodes.length → t'.node u = t₁.node u := fun u hlo hhi =>
        hframe u hhi (fun c' hc' hmem => Nat.not_lt.2 hlo (hp₁.inside c' hc' u hmem))
      -- Everything a node made for this component may apply is done, if the nodes made before it are.
      have htarget : ∀ below b, (∀ w, t.nodes.length ≤ w → w < below → Acc (AppliedBy t') w) → Target t c below b →
          Acc (AppliedBy t') b := by
        intro below b hbelow hb
        rcases hb with hext | ⟨hlo, hhi⟩ | hnever
        · obtain ⟨c', hc', hmem⟩ := hp.external hext
          exact hrest c' hc' b hmem
        · exact hbelow b hlo hhi
        · obtain ⟨h1, h2, h3⟩ := hp₁.never b (hl.keeps b hnever)
          exact acc_of_never (hkeep b h1 h2 ▸ h3)
      have hmade : ∀ u, t.nodes.length ≤ u → u < t₁.nodes.length → Acc (AppliedBy t') u := by
        intro u
        induction u using Nat.strong_induction_on with
        | _ u ih =>
          intro hlo hhi
          refine Acc.intro u fun v hv => ?_
          unfold AppliedBy NodeTable.children at hv
          rw [hkeep u (Nat.le_trans hp.le hlo) hhi] at hv
          exact htarget u v (fun w hw hwu => ih w hwu hw (Nat.lt_trans hwu hhi)) ((hl.fresh u hlo hhi).children v hv)
      refine ⟨fun c' hc' u hu => ?_, fun u hlo hhi => ?_⟩
      · rcases List.mem_cons.1 hc' with rfl | hc'
        · obtain ⟨k, hnode, hk⟩ := hl.linked u hu
          refine Acc.intro u fun v hv => ?_
          have hun := hp.inside c' List.mem_cons_self u hu
          have hnode' : t'.node u = t₁.node u :=
            hframe u (Nat.lt_of_lt_of_le hun hp₁.le) (fun c'' hc'' hmem => hp.not_mem_head hc'' hmem hu)
          unfold AppliedBy NodeTable.children at hv
          rw [hnode', hnode] at hv
          rw [List.mem_singleton.1 hv]
          exact htarget _ k hmade hk
        · exact hrest c' hc' u hu
      · by_cases hu : u < t₁.nodes.length
        · exact hmade u hlo hu
        · exact hfresh u (Nat.not_lt.1 hu) hhi
    · rename_i hcyc
      obtain ⟨hle, hframe⟩ := lowerComponents_frame h hp.tail
      obtain ⟨hrest, hfresh⟩ := lowerComponents_acc h hp.tail
      refine ⟨fun c' hc' u hu => ?_, hfresh⟩
      rcases List.mem_cons.1 hc' with rfl | hc'
      · refine Acc.intro u fun v hv => ?_
        have hnode' : t'.node u = t.node u :=
          hframe u (hp.head_lt u hu) (fun c'' hc'' hmem => hp.not_mem_head hc'' hmem hu)
        unfold AppliedBy NodeTable.children at hv
        rw [hnode'] at hv
        rcases hp.forward [] c' rest rfl u hu v hv with hmem | ⟨c'', hc'', hmem⟩
        · exact absurd (cyclic_of_mem hu hmem hv) hcyc
        · exact hrest c'' hc'' v hmem
      · exact hrest c' hc' u hu

end MaskForge
