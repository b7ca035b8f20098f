import MaskForge.Ir.Validate
/-!
# WellFormed — what validation establishes of an arena

Well-formed arenas have no index out of range and no schema reference forward: every child comes before its parent.
Validation establishes all of it but one thing: it does not look at the schema of a `contains`.
-/
namespace MaskForge
namespace Ir

section
variable {δ : Type}

def ContainsPolicy.refs : ContainsPolicy δ → List δ
  | .schema id => [id]
  | _ => []

/-- The schema of a `contains`, where it has one. -/
def containsRefs : Option (ContainsConstraint δ) → List δ
  | some c => c.policy.refs
  | none => []

def ItemsPolicy.refs : ItemsPolicy δ → List δ
  | .schema id => [id]
  | .allowAny => []

def AdditionalPolicy.refs : AdditionalPolicy δ → List δ
  | .schema id => [id]
  | _ => []

end

def Node.containsRefs : Node → List NodeId
  | .array _ _ _ _ contains _ => Ir.containsRefs contains
  | .tuple _ _ _ _ _ _ contains => Ir.containsRefs contains
  | _ => []

variable (w : SchemaIRWire)

def branchRefs (r : RefSlice) : List NodeId := (w.refsAt r).getD []

def propRefs (r : PropSlice) : List NodeId := ((w.propsAt r).getD []).map Prod.snd

/-- Every schema a node holds a reference to. -/
def schemaRefs : Node → List NodeId
  | .array items _ _ _ contains _ => items.refs ++ containsRefs contains
  | .tuple prefixes tail _ _ _ _ contains => branchRefs w prefixes ++ tail.toList ++ containsRefs contains
  | .object fields _ _ dependent _ => propRefs w fields ++ propRefs w dependent
  | .openObject known _ patterns additional propertyNames _ _ dependent _ =>
    propRefs w known ++ propRefs w patterns ++ additional.refs ++ propertyNames.toList ++ propRefs w dependent
  | .union branches | .intersection branches | .exactlyOne branches => branchRefs w branches
  | .not inner => [inner]
  | .unevaluated _ scope unevaluated => [scope, unevaluated]
  | _ => []

/-- The references validation looks at: all but the schema of a `contains`. -/
def checkedRefs : Node → List NodeId
  | .array items _ _ _ _ _ => items.refs
  | .tuple prefixes tail _ _ _ _ _ => branchRefs w prefixes ++ tail.toList
  | n => schemaRefs w n

theorem schemaRefs_eq (n : Node) : schemaRefs w n = checkedRefs w n ++ n.containsRefs := by
  cases n with
  | array | tuple => rfl
  | _ => simp [checkedRefs, Node.containsRefs]

def StrInRange (r : StrRef) : Prop := ∃ s, w.strAt r = some s

/-- A run of named schemas, with every name a string. -/
def PropsInRange (r : PropSlice) : Prop := ∃ props, w.propsAt r = some props ∧ ∀ p ∈ props, StrInRange w p.1

def PairsInRange (r : DependentRequiredSlice) : Prop :=
  ∃ pairs, w.dependentRequiredAt r = some pairs ∧ ∀ p ∈ pairs, StrInRange w p.trigger ∧ StrInRange w p.required

def BitsInRange (r : BitSlice) : Prop := r.off.toNat + (r.len.toNat + 63) / 64 ≤ w.requiredBits.length

def NodeInRange (id : NodeId) : Prop := id.toNat < w.nodes.length

/-- Every run, slot and target a node holds is in range. -/
def RunsInRange : Node → Prop
  | .stringConst value => StrInRange w value
  | .stringPattern regex _ _ _ => StrInRange w regex
  | .lexicalNumber regex => StrInRange w regex
  | .enum values => ∃ lits, w.litsAt values = some lits
  | .tuple prefixes _ _ _ _ _ _ => ∃ ids, w.refsAt prefixes = some ids
  | .object fields required _ dependent dependentRequired =>
    PropsInRange w fields ∧ BitsInRange w required ∧ PropsInRange w dependent ∧ PairsInRange w dependentRequired
  | .openObject known knownRequired patterns _ _ _ _ dependent dependentRequired =>
    PropsInRange w known ∧ BitsInRange w knownRequired ∧ PropsInRange w patterns ∧ PropsInRange w dependent ∧
      PairsInRange w dependentRequired
  | .union branches | .intersection branches | .exactlyOne branches => ∃ ids, w.refsAt branches = some ids
  | .ref slot => ∃ target, w.defTarget slot = some target
  | .dynamicRef initialTarget anchor => NodeInRange w initialTarget ∧ ∃ record, w.anchors[anchor.toNat]? = some record
  | .unsupported keyword _ => StrInRange w keyword
  | _ => True

structure AnchorInRange (anchor : AnchorRecord) : Prop where
  resource : anchor.resource.toNat < w.resources.length
  target : NodeInRange w anchor.target
  name : StrInRange w anchor.name

structure ResourceInRange (resource : ResourceRecord) : Prop where
  root : NodeInRange w resource.root
  uri : ∀ r, resource.canonicalUri = some r → StrInRange w r
  staticAnchors : ∃ anchors, runAt w.anchors resource.staticAnchors = some anchors
  dynamicAnchors : ∃ anchors, runAt w.anchors resource.dynamicAnchors = some anchors

structure DiagnosticInRange (d : Diagnostic) : Prop where
  node : NodeInRange w d.node
  keyword : StrInRange w d.keyword
  jsonPointer : StrInRange w d.jsonPointer

/-- All of the arena but the schema references is in range. -/
structure InRange : Prop where
  root : NodeInRange w w.root
  runs : ∀ n ∈ w.nodes, RunsInRange w n
  defTargets : ∀ t ∈ w.defTargets, NodeInRange w t
  retrievalUri : ∀ r, w.retrievalUri = some r → StrInRange w r
  resources : ∀ r ∈ w.resources, ResourceInRange w r
  anchors : ∀ a ∈ w.anchors, AnchorInRange w a
  owners : w.nodeResources.length = w.nodes.length
  nodeResources : ∀ r ∈ w.nodeResources, r.toNat < w.resources.length
  diagnostics : ∀ d ∈ w.diagnostics, DiagnosticInRange w d

/-- **A well-formed arena**: everything is in range, and every schema reference goes back. -/
structure WellFormed : Prop extends InRange w where
  backEdges : ∀ i (n : Node), w.nodes[i]? = some n → ∀ c ∈ schemaRefs w n, c.toNat < i

/-- The schemas of every `contains` come before their node. -/
def ContainsBack : Prop := ∀ i (n : Node), w.nodes[i]? = some n → ∀ c ∈ n.containsRefs, c.toNat < i

instance : Decidable (ContainsBack w) :=
  decidable_of_iff (∀ i, (h : i < w.nodes.length) → ∀ c ∈ (w.nodes[i]).containsRefs, c.toNat < i) (by
    simp only [ContainsBack, List.getElem?_eq_some_iff]
    exact ⟨fun h i n ⟨hi, hn⟩ => hn ▸ h i hi, fun h i hi => h i _ ⟨hi, rfl⟩⟩)

section
variable {w : SchemaIRWire} {env : Externals} {i : Nat}

/-! ### Nodes -/

theorem validateProps_ok {childOk : NodeId → Bool} {range dup edge : String} :
    ∀ {props : List (StrRef × NodeId)} {seen : List Str}, validateProps w childOk range dup edge props seen = .ok () →
      ∀ p ∈ props, StrInRange w p.1 ∧ childOk p.2 = true
  | [], _, _ => fun p hp => absurd hp List.not_mem_nil
  | (name, child) :: rest, seen, h => by
    simp only [validateProps, bind_eq_ok, fetch_ok, check_ok] at h
    obtain ⟨key, hkey, -, -, -, hchild, hrest⟩ := h
    rw [List.forall_mem_cons]
    exact ⟨⟨⟨key, hkey⟩, hchild⟩, validateProps_ok hrest⟩

theorem validatePairs_ok : ∀ {pairs : List DependentRequiredPair} {seen : List (Str × Str)},
    validatePairs w pairs seen = .ok () → ∀ p ∈ pairs, StrInRange w p.trigger ∧ StrInRange w p.required
  | [], _, _ => fun p hp => absurd hp List.not_mem_nil
  | pair :: rest, seen, h => by
    simp only [validatePairs, bind_eq_ok, fetch_ok, check_ok] at h
    obtain ⟨trigger, ht, required, hr, -, -, hrest⟩ := h
    rw [List.forall_mem_cons]
    exact ⟨⟨⟨trigger, ht⟩, ⟨required, hr⟩⟩, validatePairs_ok hrest⟩

theorem validateRequired_ok {required : BitSlice} {count : Nat} (h : validateRequired w required count = .ok ()) :
    BitsInRange w required := by
  simp only [validateRequired, bind_eq_ok, check_ok, beq_iff_eq, decide_eq_true_eq] at h
  obtain ⟨-, hlen, -, hle, -⟩ := h
  rw [BitsInRange, hlen]
  exact hle

theorem validateDependentProps_ok {dependent : PropSlice} {childOk : NodeId → Bool}
    (h : validateDependentProps w dependent childOk = .ok ()) :
    PropsInRange w dependent ∧ ∀ c ∈ propRefs w dependent, childOk c = true := by
  simp only [validateDependentProps, bind_eq_ok, fetch_ok] at h
  obtain ⟨props, hp, hv⟩ := h
  have hall := validateProps_ok hv
  refine ⟨⟨props, hp, fun p hm => (hall p hm).1⟩, fun c hc => ?_⟩
  rw [propRefs, hp, Option.getD_some, List.mem_map] at hc
  obtain ⟨p, hm, rfl⟩ := hc
  exact (hall p hm).2

theorem validateDependentRequired_ok {dependent : DependentRequiredSlice}
    (h : validateDependentRequired w dependent = .ok ()) : PairsInRange w dependent := by
  simp only [validateDependentRequired, bind_eq_ok, fetch_ok] at h
  obtain ⟨pairs, hp, -, -, hv⟩ := h
  exact ⟨pairs, hp, validatePairs_ok hv⟩

theorem validateBranches_ok {childOk : NodeId → Bool} {range empty edge : String} {branches : RefSlice}
    (h : validateBranches w childOk range empty edge branches = .ok ()) :
    (∃ ids, w.refsAt branches = some ids ∧ ids ≠ []) ∧ ∀ c ∈ branchRefs w branches, childOk c = true := by
  simp only [validateBranches, bind_eq_ok, fetch_ok, check_ok, each_ok, Bool.not_eq_true'] at h
  obtain ⟨ids, hids, -, hne, hall⟩ := h
  refine ⟨⟨ids, hids, by simpa using hne⟩, fun c hc => ?_⟩
  rw [branchRefs, hids, Option.getD_some] at hc
  exact hall c hc

theorem validatePatterns_ok {childOk : NodeId → Bool} {patterns : List (StrRef × NodeId)}
    (h : validatePatterns env w childOk patterns = .ok ()) : ∀ p ∈ patterns, StrInRange w p.1 ∧ childOk p.2 = true := by
  simp only [validatePatterns, each_ok, bind_eq_ok, fetch_ok, check_ok] at h
  intro p hp
  obtain ⟨re, hre, -, -, hchild⟩ := h p hp
  exact ⟨⟨re, hre⟩, hchild⟩

/-- What an accepted dynamic reference satisfies. -/
theorem validateDynamicRef_ok {initialTarget : NodeId} {anchor : AnchorId}
    (h : validateDynamicRef w initialTarget anchor = .ok ()) :
    NodeInRange w initialTarget ∧ ∃ record resource, w.anchors[anchor.toNat]? = some record ∧
      w.resources[record.resource.toNat]? = some resource ∧ resource.dynamicAnchors.off.toNat ≤ anchor.toNat ∧
        anchor.toNat < resource.dynamicAnchors.off.toNat + resource.dynamicAnchors.len.toNat ∧
        (record.target = initialTarget ∨
          ∃ slot, w.node initialTarget = some (.ref slot) ∧ w.defTarget slot = some record.target) := by
  simp only [validateDynamicRef, bind_eq_ok, fetch_ok, check_ok, decide_eq_true_eq, Bool.or_eq_true, beq_iff_eq] at h
  obtain ⟨-, hr, record, hrec, resource, hres, -, ⟨hlo, hhi⟩, ht⟩ := h
  refine ⟨hr, record, resource, hrec, hres, hlo, hhi, ht.imp_right fun hv => ?_⟩
  split at hv
  · rename_i slot hslot
    exact ⟨slot, hslot, beq_iff_eq.1 hv⟩
  · cases hv

/-- **An accepted node** has its runs in range, and its children before it but for the schema of a `contains`. -/
theorem validateNode_ok {n : Node} (h : validateNode env w i n = .ok ()) :
    RunsInRange w n ∧ ∀ c ∈ checkedRefs w n, c.toNat < i := by
  cases n with
  | null | boolean | never | integer | number => exact ⟨trivial, fun c hc => absurd hc List.not_mem_nil⟩
  | stringConst value =>
    simp only [validateNode, bind_eq_ok, fetch_ok] at h
    exact ⟨⟨h.choose, h.choose_spec.1⟩, fun c hc => absurd hc List.not_mem_nil⟩
  | stringPattern regex =>
    simp only [validateNode, bind_eq_ok, fetch_ok] at h
    exact ⟨⟨h.choose, h.choose_spec.1⟩, fun c hc => absurd hc List.not_mem_nil⟩
  | lexicalNumber regex =>
    simp only [validateNode, bind_eq_ok, fetch_ok] at h
    exact ⟨⟨h.choose, h.choose_spec.1⟩, fun c hc => absurd hc List.not_mem_nil⟩
  | unsupported keyword =>
    simp only [validateNode, bind_eq_ok, fetch_ok] at h
    exact ⟨⟨h.choose, h.choose_spec.1⟩, fun c hc => absurd hc List.not_mem_nil⟩
  | enum values =>
    simp only [validateNode, bind_eq_ok, fetch_ok] at h
    exact ⟨⟨h.choose, h.choose_spec.1⟩, fun c hc => absurd hc List.not_mem_nil⟩
  | array items minItems maxItems uniqueItems contains itemsAnnotates =>
    simp only [validateNode, bind_eq_ok, check_ok] at h
    obtain ⟨-, hitems, -⟩ := h
    refine ⟨trivial, fun c hc => ?_⟩
    cases items with
    | schema id =>
      rw [List.mem_singleton.1 hc]
      exact of_decide_eq_true hitems
    | allowAny => exact absurd hc List.not_mem_nil
  | tuple prefixes tail minItems maxItems uniqueItems tailAnnotates contains =>
    simp only [validateNode, bind_eq_ok, check_ok, fetch_ok, each_ok, decide_eq_true_eq] at h
    obtain ⟨ids, hids, -, -, -, hback, -, htail, -⟩ := h
    refine ⟨⟨ids, hids⟩, fun c hc => ?_⟩
    simp only [checkedRefs, List.mem_append, branchRefs, hids, Option.getD_some, Option.mem_toList] at hc
    rcases hc with hc | hc
    · exact hback c hc
    · rw [hc] at htail
      exact of_decide_eq_true htail
  | object fields required closure dependent dependentRequired =>
    simp only [validateNode, bind_eq_ok, fetch_ok] at h
    obtain ⟨props, hprops, ⟨⟩, hv, ⟨⟩, hreq, ⟨⟩, hdep, hpairs⟩ := h
    have hall := validateProps_ok hv
    obtain ⟨hdr, hdb⟩ := validateDependentProps_ok hdep
    refine ⟨⟨⟨props, hprops, fun p hm => (hall p hm).1⟩, validateRequired_ok hreq, hdr,
      validateDependentRequired_ok hpairs⟩, fun c hc => ?_⟩
    simp only [checkedRefs, schemaRefs, propRefs, hprops, Option.getD_some, List.mem_append, List.mem_map] at hc
    rcases hc with ⟨p, hm, rfl⟩ | hc
    · exact of_decide_eq_true (hall p hm).2
    · exact of_decide_eq_true (hdb c (List.mem_map.2 hc))
  | openObject known knownRequired patterns additional propertyNames minProperties maxProperties dependent
      dependentRequired =>
    simp only [validateNode, bind_eq_ok, fetch_ok, check_ok] at h
    obtain ⟨knownProps, hknown, ⟨⟩, hv, ⟨⟩, hreq, patternProps, hpat, ⟨⟩, hvp, -, hadd, -, hnames, -, -, ⟨⟩, hdep,
      hpairs⟩ := h
    have hall := validateProps_ok hv
    have hallp := validatePatterns_ok hvp
    obtain ⟨hdr, hdb⟩ := validateDependentProps_ok hdep
    refine ⟨⟨⟨knownProps, hknown, fun p hm => (hall p hm).1⟩, validateRequired_ok hreq,
      ⟨patternProps, hpat, fun p hm => (hallp p hm).1⟩, hdr, validateDependentRequired_ok hpairs⟩, fun c hc => ?_⟩
    simp only [checkedRefs, schemaRefs, List.mem_append, Option.mem_toList] at hc
    rcases hc with (((hc | hc) | hc) | hc) | hc
    · rw [propRefs, hknown, Option.getD_some, List.mem_map] at hc
      obtain ⟨p, hm, rfl⟩ := hc
      exact of_decide_eq_true (hall p hm).2
    · rw [propRefs, hpat, Option.getD_some, List.mem_map] at hc
      obtain ⟨p, hm, rfl⟩ := hc
      exact of_decide_eq_true (hallp p hm).2
    · cases additional with
      | schema id =>
        rw [List.mem_singleton.1 hc]
        exact of_decide_eq_true hadd
      | forbid | allowAny | «open» => exact absurd hc List.not_mem_nil
    · rw [hc] at hnames
      exact of_decide_eq_true hnames
    · exact of_decide_eq_true (hdb c hc)
  | union branches | intersection branches | exactlyOne branches =>
    obtain ⟨⟨ids, hids, -⟩, hback⟩ := validateBranches_ok h
    exact ⟨⟨ids, hids⟩, fun c hc => of_decide_eq_true (hback c hc)⟩
  | not inner =>
    simp only [validateNode, check_ok, decide_eq_true_eq] at h
    refine ⟨trivial, fun c hc => ?_⟩
    rw [List.mem_singleton.1 hc]
    exact h
  | ref slot =>
    simp only [validateNode, check_ok, decide_eq_true_eq] at h
    exact ⟨⟨_, List.getElem?_eq_getElem h⟩, fun c hc => absurd hc List.not_mem_nil⟩
  | dynamicRef initialTarget anchor =>
    obtain ⟨ht, record, -, hrec, -⟩ := validateDynamicRef_ok h
    exact ⟨⟨ht, record, hrec⟩, fun c hc => absurd hc List.not_mem_nil⟩
  | unevaluated kind scope unevaluated =>
    simp only [validateNode, check_ok, Bool.and_eq_true, decide_eq_true_eq] at h
    refine ⟨trivial, fun c hc => ?_⟩
    simp only [checkedRefs, schemaRefs, List.mem_cons, List.not_mem_nil, or_false] at hc
    rcases hc with rfl | rfl
    · exact h.1
    · exact h.2

theorem validateNodes_ok : ∀ {i : Nat} {l : List Node}, validateNodes env w i l = .ok () →
    ∀ j (n : Node), l[j]? = some n → i + j < u32Size ∧ validateNode env w (i + j) n = .ok ()
  | i, [], _ => fun j n hj => by simp at hj
  | i, node :: rest, h => by
    simp only [validateNodes, bind_eq_ok, check_ok, decide_eq_true_eq] at h
    obtain ⟨-, hi, ⟨⟩, hnode, hrest⟩ := h
    intro j n hj
    cases j with
    | zero =>
      cases hj
      exact ⟨hi, hnode⟩
    | succ j =>
      rw [← Nat.succ_add_eq_add_succ]
      exact validateNodes_ok hrest j n hj

/-! ### Resources -/

/-- The records below a cursor were claimed by a resource's run. -/
def Claimed (w : SchemaIRWire) (cursor : Nat) : Prop := ∀ j < cursor, ∀ a, w.anchors[j]? = some a → AnchorInRange w a

theorem validateAnchors_ok {resource : Nat} (hres : resource < w.resources.length) :
    ∀ {l : List AnchorRecord} {previous : Option Str}, validateAnchors w resource l previous = .ok () →
      ∀ a ∈ l, AnchorInRange w a
  | [], _, _ => fun a ha => absurd ha List.not_mem_nil
  | anchor :: rest, previous, h => by
    simp only [validateAnchors, bind_eq_ok, check_ok, fetch_ok, beq_iff_eq, Bool.and_eq_true, decide_eq_true_eq] at h
    obtain ⟨-, hr, -, ⟨ht, -⟩, name, hname, -, -, hrest⟩ := h
    rw [List.forall_mem_cons]
    exact ⟨⟨hr ▸ hres, ht, name, hname⟩, validateAnchors_ok hres hrest⟩

theorem validateAnchorRun_ok {run : AnchorSlice} {resource : Nat} {anchors : List AnchorRecord}
    (h : validateAnchorRun w run resource = .ok anchors) :
    runAt w.anchors run = some anchors ∧ validateAnchors w resource anchors none = .ok () := by
  simp only [validateAnchorRun, bind_eq_ok, fetch_ok] at h
  obtain ⟨l, hl, ⟨⟩, hv, he⟩ := h
  cases he
  exact ⟨hl, hv⟩

theorem validateRun_ok {resource cursor cursor' : Nat} {run : AnchorSlice} {names names' : List Str}
    (hres : resource < w.resources.length) (h : validateRun w resource run cursor names = .ok (cursor', names'))
    (hc : Claimed w cursor) : (∃ anchors, runAt w.anchors run = some anchors) ∧ Claimed w cursor' := by
  simp only [validateRun, bind_eq_ok, check_ok, beq_iff_eq] at h
  obtain ⟨-, hoff, anchors, hrun, names'', -, he⟩ := h
  obtain ⟨hat, hv⟩ := validateAnchorRun_ok hrun
  have hall := validateAnchors_ok hres hv
  cases he
  refine ⟨⟨anchors, hat⟩, fun j hj a ha => ?_⟩
  by_cases hlt : j < cursor
  · exact hc j hlt a ha
  · refine hall a (List.mem_of_getElem? (i := j - cursor) ?_)
    obtain ⟨-, rfl⟩ := runAt_some hat
    rw [length_runAt hat] at hj
    rw [List.getElem?_take_of_lt (by omega), List.getElem?_drop, hoff, ← ha]
    congr 1
    omega

theorem validateUri_ok {scan scan' : ResourceScan} {uri : Option StrRef} (h : validateUri env w scan uri = .ok scan') :
    (∀ r, uri = some r → StrInRange w r) ∧ scan'.anchorCursor = scan.anchorCursor := by
  cases uri with
  | none =>
    simp only [validateUri, bind_eq_ok] at h
    obtain ⟨-, -, he⟩ := h
    cases he
    exact ⟨fun r hr => (Option.some_ne_none r hr.symm).elim, rfl⟩
  | some r =>
    simp only [validateUri, bind_eq_ok, fetch_ok] at h
    obtain ⟨s, hs, -, -, -, -, he⟩ := h
    cases he
    exact ⟨fun r' hr' => ⟨s, Option.some.inj hr' ▸ hs⟩, rfl⟩

theorem validateResource_ok {index : Nat} {resource : ResourceRecord} {scan scan' : ResourceScan}
    (hres : index < w.resources.length) (h : validateResource env w index resource scan = .ok scan')
    (hc : Claimed w scan.anchorCursor) : ResourceInRange w resource ∧ Claimed w scan'.anchorCursor := by
  simp only [validateResource, bind_eq_ok, check_ok, decide_eq_true_eq] at h
  obtain ⟨-, hroot, -, -, -, -, mid, huri, ⟨c1, n1⟩, hs, ⟨c2, n2⟩, hd, he⟩ := h
  cases he
  obtain ⟨hu, hcur⟩ := validateUri_ok huri
  obtain ⟨hstat, hc1⟩ := validateRun_ok hres hs (hcur.symm ▸ hc)
  obtain ⟨hdyn, hc2⟩ := validateRun_ok hres hd hc1
  exact ⟨⟨hroot, hu, hstat, hdyn⟩, hc2⟩

theorem validateResourceList_ok : ∀ {index : Nat} {l : List ResourceRecord} {scan scan' : ResourceScan},
    validateResourceList env w index l scan = .ok scan' → index + l.length = w.resources.length →
      Claimed w scan.anchorCursor → (∀ r ∈ l, ResourceInRange w r) ∧ Claimed w scan'.anchorCursor
  | _, [], _, _, h, _, hc => by
    cases h
    exact ⟨fun r hr => absurd hr List.not_mem_nil, hc⟩
  | index, resource :: rest, scan, scan', h, hlen, hc => by
    simp only [validateResourceList, bind_eq_ok] at h
    obtain ⟨mid, hmid, hrest⟩ := h
    rw [List.length_cons] at hlen
    obtain ⟨hr, hc'⟩ := validateResource_ok (by omega) hmid hc
    obtain ⟨hall, hc''⟩ := validateResourceList_ok hrest (by omega) hc'
    exact ⟨List.forall_mem_cons.2 ⟨hr, hall⟩, hc''⟩

structure ResourcesOk (w : SchemaIRWire) : Prop where
  retrievalUri : ∀ r, w.retrievalUri = some r → StrInRange w r
  resources : ∀ r ∈ w.resources, ResourceInRange w r
  anchors : ∀ a ∈ w.anchors, AnchorInRange w a
  owners : w.nodeResources.length = w.nodes.length
  nodeResources : ∀ r ∈ w.nodeResources, r.toNat < w.resources.length
  resourceCap : w.resources.length ≤ maxResources
  anchorCap : w.anchors.length ≤ maxAnchors

theorem validateResources_ok (h : validateResources env w = .ok ()) : ResourcesOk w := by
  simp only [validateResources, bind_eq_ok, check_ok, each_ok, Bool.and_eq_true, decide_eq_true_eq, beq_iff_eq] at h
  obtain ⟨-, ⟨-, hcap⟩, -, hanchors, -, howners, ⟨⟩, huri, -, hnodes, scan, hscan, hend⟩ := h
  obtain ⟨hres, hclaim⟩ := validateResourceList_ok hscan (Nat.zero_add _) (fun j hj => absurd hj (Nat.not_lt_zero j))
  refine ⟨fun r hr => ?_, hres, fun a ha => ?_, howners, hnodes, hcap, hanchors⟩
  · rw [hr] at huri
    simp only [validateRetrievalUri, bind_eq_ok, fetch_ok] at huri
    obtain ⟨s, hs, -⟩ := huri
    exact ⟨s, hs⟩
  · obtain ⟨j, hj, rfl⟩ := List.mem_iff_getElem.1 ha
    exact hclaim j (hend ▸ hj) _ (List.getElem?_eq_getElem hj)

/-! ### The arena -/

theorem validateDiagnostic_ok {d : Diagnostic} (h : validateDiagnostic w d = .ok ()) : DiagnosticInRange w d := by
  simp only [validateDiagnostic, bind_eq_ok, fetch_ok] at h
  obtain ⟨node, hnode, h⟩ := h
  have hin : NodeInRange w d.node := (List.getElem?_eq_some_iff.1 hnode).1
  split at h
  · simp only [bind_eq_ok, check_ok, Bool.and_eq_true, Option.isSome_iff_exists] at h
    obtain ⟨-, -, -, -, -, ⟨hk, hp⟩, -⟩ := h
    exact ⟨hin, hk, hp⟩
  · cases h

/-- What an accepted arena satisfies. -/
structure Validated (env : Externals) (w : SchemaIRWire) : Prop where
  version : w.irVersion = irVersion
  inRange : InRange w
  nodes : ∀ i (n : Node), w.nodes[i]? = some n → i < u32Size ∧ validateNode env w i n = .ok ()
  resourceCap : w.resources.length ≤ maxResources
  anchorCap : w.anchors.length ≤ maxAnchors
  pairCap : w.dependentRequiredPairs.length ≤ maxDependentRequiredPairs
  literalCap : literalStrBytes w.literals ≤ maxLiteralStrBytes

theorem validate_ok (h : validate env w = .ok ()) : Validated env w := by
  simp only [validate, bind_eq_ok, check_ok, each_ok, decide_eq_true_eq, beq_iff_eq] at h
  obtain ⟨-, hver, -, -, -, hroot, -, hlit, -, hpair, ⟨⟩, hres, ⟨⟩, hnodes, -, hdefs, hdiag⟩ := h
  have hr := validateResources_ok hres
  have hn := validateNodes_ok hnodes
  simp only [Nat.zero_add] at hn
  simp only [validateDiagnostics, bind_eq_ok, each_ok] at hdiag
  obtain ⟨-, -, hd⟩ := hdiag
  refine ⟨hver, ⟨hroot, fun n hm => ?_, hdefs, hr.retrievalUri, hr.resources, hr.anchors, hr.owners, hr.nodeResources,
    fun d hm => validateDiagnostic_ok (hd d hm)⟩, hn, hr.resourceCap, hr.anchorCap, hpair, hlit⟩
  obtain ⟨i, hi, rfl⟩ := List.mem_iff_getElem.1 hm
  exact (validateNode_ok (hn i _ (List.getElem?_eq_getElem hi)).2).1

/-- **An accepted arena is well-formed exactly when the schemas of its `contains` come before their nodes.** -/
theorem Validated.wellFormed_iff (h : Validated env w) : WellFormed w ↔ ContainsBack w := by
  constructor
  · intro hw i n hn c hc
    refine hw.backEdges i n hn c ?_
    rw [schemaRefs_eq]
    exact List.mem_append_right _ hc
  · intro hcb
    refine ⟨h.inRange, fun i n hn c hc => ?_⟩
    rw [schemaRefs_eq] at hc
    rcases List.mem_append.1 hc with hc | hc
    · exact (validateNode_ok (h.nodes i n hn).2).2 c hc
    · exact hcb i n hn c hc

end

end Ir
end MaskForge
