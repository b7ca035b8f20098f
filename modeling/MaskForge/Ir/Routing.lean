import MaskForge.Ir.WellFormed
import MaskForge.Lib.PostOrder
/-!
# Routing — which nodes compile to one regular automaton

Every node gets a route from one post-order pass: regular if nothing about it needs the structured engine, all its
children are regular and a bounded estimate of its automaton stays under the limits.  A child that has no route yet when
its parent is closed is a way back into a cycle.
-/
namespace MaskForge
namespace Ir

/-! ### Bounded estimates -/

def stateCap : Nat := 2 ^ 16
def cellCap : Nat := 2 ^ 22
def memoryCap : Nat := 256 * 2 ^ 20

/-- A `u64` no greater than the estimator's cap, or past it. -/
inductive Bound where
  | known (value : Nat)
  | exceedsLimit
  deriving DecidableEq

/-- `checked_add` and `checked_mul` under a cap. -/
def capBound (v cap : Nat) : Bound := if v ≤ u64Max ∧ v ≤ cap then .known v else .exceedsLimit

def addBound (a b : Bound) (cap : Nat) : Bound :=
  match a, b with
  | .known a, .known b => capBound (a + b) cap
  | _, _ => .exceedsLimit

def mulBound (a b : Bound) (cap : Nat) : Bound :=
  match a, b with
  | .known a, .known b => capBound (a * b) cap
  | _, _ => .exceedsLimit

def pow2Bound (n cap : Nat) : Bound := if n < 64 then capBound (2 ^ n) cap else .exceedsLimit

inductive ExecutionKind where
  | regular
  | structured
  | hybrid
  deriving DecidableEq

inductive RouteReason where
  | cheapRegular
  | dynamicReference
  | evaluationAnnotations
  | openObject
  | userPattern
  | shuffleCost
  | productCost
  | repetitionCost
  | automatonMemory
  | structuredOnlySemantics
  deriving DecidableEq

structure CostEstimate where
  states : Bound
  transitionCells : Bound
  work : Bound
  retainedBytes : Bound
  peakBytes : Bound

def CostEstimate.regular (states cells : Bound) : CostEstimate :=
  let retained := addBound (mulBound states (.known 64) memoryCap) (mulBound cells (.known 8) memoryCap) memoryCap
  let peak := addBound retained (mulBound states (.known 96) memoryCap) memoryCap
  ⟨states, cells, cells, retained, peak⟩

def CostEstimate.structured (childCount : Nat) : CostEstimate :=
  let nodes := if childCount + 1 ≤ u64Max then Bound.known (childCount + 1) else .exceedsLimit
  ⟨nodes, nodes, nodes, mulBound nodes (.known 128) memoryCap, mulBound nodes (.known 256) memoryCap⟩

structure NodeRoute where
  kind : ExecutionKind
  reason : RouteReason
  regular : CostEstimate
  structured : CostEstimate

section
variable (w : SchemaIRWire)

/-! ### Predicates of the arena -/

/-- A counted string too long to unroll. -/
def isUnrolledCodepointString : Node → Bool
  | .stringPattern regex minLen maxLen .utf8CountedCodepoints =>
    (maxLen.any (fun n => decide (maxUnrolledCodepointLen < n)) ||
      minLen.any (fun n => decide (maxUnrolledCodepointLen < n))) &&
      (w.strAt regex).any fun s => s.bytes == jsonStringCodepoint
  | _ => false

/-- A `pattern` or `format`, as opposed to the unconstrained body. -/
def isUserPattern : Node → Bool
  | .stringPattern regex _ _ .utf8Any => !(w.strAt regex).any fun s => s.bytes == jsonStringBody
  | _ => false

def ScalarLit.isStr : ScalarLit → Bool
  | .str _ => true
  | _ => false

def isLargeStringEnum : Node → Bool
  | .enum values => (w.litsAt values).any fun lits => decide (maxUnrolledEnum < lits.length) && lits.all ScalarLit.isStr
  | _ => false

/-- `for_each_child`, as the list of what it visits. -/
def forEachChild : Option Node → List NodeId
  | some (.object fields _ _ dependent _) => propRefs w fields ++ propRefs w dependent
  | some (.openObject known _ patterns additional propertyNames _ _ dependent _) =>
    propRefs w known ++ propRefs w patterns ++ additional.refs ++ propertyNames.toList ++ propRefs w dependent
  | some (.array items _ _ _ contains _) => items.refs ++ containsRefs contains
  | some (.tuple prefixes tail _ _ _ _ contains) => branchRefs w prefixes ++ tail.toList ++ containsRefs contains
  | some (.union branches) | some (.intersection branches) | some (.exactlyOne branches) => branchRefs w branches
  | some (.not inner) => [inner]
  | some (.ref slot) => (w.defTarget slot).toList
  | some (.dynamicRef initialTarget _) => [initialTarget]
  | some (.unevaluated _ scope schema) => [scope, schema]
  | _ => []

/-! ### Costs -/

def litBytesEstimate : ScalarLit → Nat
  | .str s => s.bytes.length
  | _ => 16

/-- One state for each literal's bytes, and one more. -/
def enumStates (values : List ScalarLit) : Bound :=
  values.foldl (fun total value => addBound total (.known (min (litBytesEstimate value + 1) u64Max)) stateCap)
    (.known 1)

/-- `max_by_key` on the bound, an exceeded one being the largest. -/
def maxBound (bounds : List Bound) : Bound :=
  let key := fun (b : Bound) => match b with
    | .known v => v
    | .exceedsLimit => u64Max
  match bounds with
  | [] => .known 1
  | b :: bs => bs.foldl (fun best b => if key best ≤ key b then b else best) b

/-- `shuffle_child_states`; the fuel bounds the depth, which back-edges keep under the node's index. -/
def shuffleChildStates : Nat → NodeId → Bound
  | 0, _ => .exceedsLimit
  | fuel + 1, id =>
    match w.node id with
    | some (.stringPattern regex _ (some max) _) =>
      addBound (mulBound (.known max.toNat)
        (.known (if (w.strAt regex).any (fun s => decide (s.bytes.length ≤ 8)) then 8 else 96)) stateCap)
          (.known 16) stateCap
    | some (.stringPattern _ _ none _) => .known 512
    | some (.union branches) => maxBound ((branchRefs w branches).map (shuffleChildStates fuel))
    | some (.enum values) =>
      match w.litsAt values with
      | none => .exceedsLimit
      | some values => mulBound (enumStates values) (.known 8) stateCap
    | some .boolean | some .null | some .never => .known 1
    | some (.integer ..) | some (.number ..) => .known 512
    | some (.array (.schema child) _ _ _ _ _) => addBound (shuffleChildStates fuel child) (.known 32) stateCap
    | some (.tuple prefixes tail _ _ _ _ _) =>
      let prefixCost := (branchRefs w prefixes).foldl
        (fun total child => addBound total (shuffleChildStates fuel child) stateCap) (.known 32)
      match tail with
      | none => prefixCost
      | some child => addBound prefixCost (shuffleChildStates fuel child) stateCap
    | some (.lexicalNumber regex) =>
      match w.strAt regex with
      | none => .exceedsLimit
      | some s => .known s.bytes.length
    | some _ => .known 2048
    | none => .exceedsLimit

/-- The states of an object's shuffle: all subsets of its fields, and half of them in the middle of a field. -/
def objectStates (fields : PropSlice) (count : Nat) : Bound :=
  let subsets := pow2Bound count stateCap
  let half := pow2Bound (count - 1) stateCap
  let sum := (propRefs w fields).foldl
    (fun total child => addBound total (shuffleChildStates w (child.toNat + 1) child) stateCap) (.known 0)
  addBound subsets (mulBound half sum stateCap) stateCap

def repeatedStates (maxItems : Option UInt32) (child : Bound) : Bound :=
  match maxItems with
  | none => addBound child (.known 16) stateCap
  | some max => addBound (.known 1) (mulBound (.known max.toNat) child stateCap) stateCap

def regularStates (node : Node) (children : List NodeRoute) : Bound :=
  let childStates := (children[0]?.map fun route => route.regular.states).getD (.known 1)
  match node with
  | .union _ => children.foldl (fun total child => addBound total child.regular.states stateCap) (.known 1)
  | .intersection _ | .exactlyOne _ =>
    children.foldl (fun total child => mulBound total child.regular.states stateCap) (.known 1)
  | .stringPattern _ _ (some max) .utf8CountedCodepoints =>
    addBound (mulBound (.known max.toNat) (.known 8) stateCap) (.known 16) stateCap
  | .stringPattern _ _ none _ => .known 64
  | .lexicalNumber regex =>
    match w.strAt regex with
    | none => .exceedsLimit
    | some s => addBound (.known s.bytes.length) (.known 16) stateCap
  | .object fields _ _ _ _ => objectStates w fields (propRefs w fields).length
  | .array _ _ maxItems _ _ _ => repeatedStates maxItems childStates
  | .tuple _ _ _ maxItems _ _ _ => repeatedStates maxItems childStates
  | .enum values =>
    match w.litsAt values with
    | none => .exceedsLimit
    | some values => enumStates values
  | _ => .known 32

def Node.isProduct : Node → Bool
  | .intersection _ | .exactlyOne _ => true
  | _ => false

def Node.isObject : Node → Bool
  | .object .. => true
  | _ => false

def hasFields : Node → Bool
  | .object fields _ _ _ _ => !(propRefs w fields).isEmpty
  | _ => false

def regularCost (node : Node) (children : List NodeRoute) : CostEstimate × RouteReason :=
  if isLargeStringEnum w node then
    let states := match node with
      | .enum values => match w.litsAt values with
        | none => .exceedsLimit
        | some lits => addBound (.known lits.length) (.known 1) stateCap
      | _ => .exceedsLimit
    (.regular states (mulBound states (.known 1) cellCap), .cheapRegular)
  else if node.isObject && !hasFields w node then (.regular (.known 1) (.known 64), .cheapRegular)
  else
    let states := regularStates w node children
    let cells :=
      if node.isProduct then mulBound states (.known 256) (2 ^ 24)
      else if hasFields w node then mulBound states (.known 256) (2 ^ 20)
      else mulBound states (.known 64) cellCap
    let exceeded := states = .exceedsLimit ∨ cells = .exceedsLimit
    let reason :=
      if node.isProduct ∧ exceeded then .productCost
      else if node.isObject ∧ exceeded then .shuffleCost
      else if exceeded then .automatonMemory
      else .cheapRegular
    (.regular states cells, reason)

def combinatorHasExpensiveBranch (branches : RefSlice) : Bool :=
  (branchRefs w branches).any fun branch => (w.node branch).any fun node =>
    match node with
    | .integer _ _ (some _) => true
    | .number _ _ _ (some _) => true
    | .object fields _ _ _ _ => decide (2 ≤ (propRefs w fields).length)
    | .openObject known _ _ _ _ _ _ _ _ => decide (2 ≤ (propRefs w known).length)
    | .array _ _ maxItems _ _ _ => maxItems.all fun max => decide (5 < max)
    | .tuple _ _ _ maxItems _ _ _ => maxItems.all fun max => decide (5 < max)
    | node => isLargeStringEnum w node

/-- More items than are unrolled, or more states. -/
def repetitionCost (minItems : UInt32) (maxItems : Option UInt32) (regular : CostEstimate) : Option RouteReason :=
  if maxUnrolledArrayItems < minItems ∨ maxItems.any (fun max => decide (maxUnrolledArrayItems < max)) = true ∨
      regular.states = .exceedsLimit then some .repetitionCost
  else none

def memoryReason (regular : CostEstimate) : Option RouteReason :=
  if regular.retainedBytes = .exceedsLimit ∨ regular.peakBytes = .exceedsLimit then some .automatonMemory else none

/-- Why a node cannot be regular, whatever its children are. -/
def localStructuredReason (node : Node) (regular : CostEstimate) : Option RouteReason :=
  match node with
  | .openObject .. => some .openObject
  | .stringPattern regex minLen maxLen charset =>
    if isUserPattern w (.stringPattern regex minLen maxLen charset) then some .userPattern
    else if isUnrolledCodepointString w (.stringPattern regex minLen maxLen charset) then some .repetitionCost
    else memoryReason regular
  | .object fields _ _ dependent dependentRequired =>
    if (w.propsAt dependent).any (fun items => !items.isEmpty) ||
        (w.dependentRequiredAt dependentRequired).any (fun items => !items.isEmpty) then some .evaluationAnnotations
    else if (w.propsAt fields).any (fun items => decide (maxSafeShuffleFields < items.length)) = true ∨
        regular.states = .exceedsLimit ∨ regular.transitionCells = .exceedsLimit then some .shuffleCost
    else none
  | .array items minItems maxItems uniqueItems contains _ =>
    if uniqueItems || items == .allowAny || contains.isSome then some .structuredOnlySemantics
    else repetitionCost minItems maxItems regular
  | .tuple _ _ minItems maxItems uniqueItems _ contains =>
    if uniqueItems || contains.isSome then some .structuredOnlySemantics else repetitionCost minItems maxItems regular
  | .intersection branches | .exactlyOne branches =>
    if combinatorHasExpensiveBranch w branches = true ∨ regular.states = .exceedsLimit ∨
        regular.transitionCells = .exceedsLimit then some .productCost
    else memoryReason regular
  | .number integerOnly minimum maximum multipleOf =>
    if integerOnly || minimum.isSome || maximum.isSome || multipleOf.isSome then some .structuredOnlySemantics
    else memoryReason regular
  | .not _ | .unsupported .. => some .structuredOnlySemantics
  | .ref _ | .dynamicRef .. => some .dynamicReference
  | .unevaluated .. => some .evaluationAnnotations
  | _ => memoryReason regular

/-! ### The pass -/

def estimateNode (node : Node) (routes : Nat → Option NodeRoute) : NodeRoute :=
  let children := forEachChild w (some node)
  let childRoutes := children.filterMap fun c => routes c.toNat
  let (regular, costReason) := regularCost w node childRoutes
  let (kind, reason) :=
    match localStructuredReason w node regular with
    | some reason =>
      (if childRoutes.any (fun route => route.kind == .regular) then ExecutionKind.hybrid else .structured, reason)
    | none =>
      -- fewer routes than children: one of them is still open
      if childRoutes.length ≠ children.length then (.hybrid, .dynamicReference)
      else match childRoutes.find? (fun route => route.kind != .regular) with
        | some child => (.hybrid, child.reason)
        | none => if costReason ≠ .cheapRegular then (.hybrid, costReason) else (.regular, .cheapRegular)
  ⟨kind, reason, regular, .structured children.length⟩

def fallback : NodeRoute :=
  ⟨.structured, .structuredOnlySemantics, .regular .exceedsLimit .exceedsLimit, .structured 0⟩

def kidsOf (index : Nat) : List Nat := (forEachChild w w.nodes[index]?).map UInt32.toNat

def routeOf (index : Nat) (routes : Nat → Option NodeRoute) : NodeRoute :=
  match w.nodes[index]? with
  | some node => estimateNode w node routes
  | none => fallback

/-- The pass of `analyze`, run to its end. -/
def pass : PostOrder.State NodeRoute :=
  PostOrder.run w.nodes.length (kidsOf w) (routeOf w) (PostOrder.fuel w.nodes.length (kidsOf w))
    (PostOrder.init w.nodes.length)

/-- The table `analyze` freezes. -/
def analyze : List NodeRoute := (List.range w.nodes.length).map fun i => ((pass w).out i).getD fallback

def requiresStructuredBackend : Bool := ((analyze w)[w.root.toNat]?).all fun route => route.kind != .regular

end

section
variable {w : SchemaIRWire} {env : Externals}

/-- The estimate of a child does not depend on the fuel, once there is more of it than nodes before the child. -/
theorem shuffleChildStates_fuel (h : Validated env w) : ∀ (f g : Nat) (id : NodeId), id.toNat < f → id.toNat < g →
    shuffleChildStates w f id = shuffleChildStates w g id
  | 0, _, _, hf, _ => absurd hf (Nat.not_lt_zero _)
  | _, 0, _, _, hg => absurd hg (Nat.not_lt_zero _)
  | f + 1, g + 1, id, hf, hg => by
    have hback : ∀ n, w.node id = some n → ∀ c ∈ checkedRefs w n, c.toNat < id.toNat :=
      fun n hn => (validateNode_ok (h.nodes id.toNat n hn).2).2
    have ih : ∀ c : NodeId, c.toNat < id.toNat → shuffleChildStates w f c = shuffleChildStates w g c := fun c hc =>
      shuffleChildStates_fuel h f g c (by omega) (by omega)
    rw [shuffleChildStates, shuffleChildStates]
    -- only unions, arrays and tuples look at their children
    split
    case h_3 branches hn =>
      congr 1
      exact List.map_congr_left fun c hc => ih c (hback _ hn c hc)
    case h_10 child _ _ _ contains _ hn => rw [ih child (hback _ hn child (List.mem_singleton.2 rfl))]
    case h_11 prefixes tail _ _ _ _ contains hn =>
      have hpre : ∀ (l : List NodeId) (b : Bound), (∀ c ∈ l, c ∈ branchRefs w prefixes) →
          l.foldl (fun total child => addBound total (shuffleChildStates w f child) stateCap) b =
            l.foldl (fun total child => addBound total (shuffleChildStates w g child) stateCap) b := by
        intro l
        induction l with
        | nil => exact fun _ _ => rfl
        | cons c l ihl =>
          intro b hl
          rw [List.foldl_cons, List.foldl_cons, ih c (hback _ hn c (List.mem_append_left _ (hl c List.mem_cons_self)))]
          exact ihl _ fun c' hc' => hl c' (List.mem_cons_of_mem _ hc')
      rw [hpre _ _ fun c hc => hc]
      cases tail with
      | none => rfl
      | some child =>
        dsimp only
        rw [ih child (hback _ hn child (List.mem_append_right _ (by simp)))]
    all_goals rfl

/-- **What makes a node regular**: nothing of its own, and every child closed before it and regular. -/
theorem estimateNode_regular {node : Node} {routes : Nat → Option NodeRoute}
    (h : (estimateNode w node routes).kind = .regular) :
    (∃ regular, localStructuredReason w node regular = none) ∧
      ∀ c ∈ forEachChild w (some node), ∃ route, routes c.toNat = some route ∧ route.kind = .regular := by
  unfold estimateNode at h
  dsimp only at h
  split at h
  · rename_i reason hr
    dsimp only at h
    split at h <;> cases h
  · rename_i hr
    refine ⟨⟨_, hr⟩, ?_⟩
    split at h
    · cases h
    · rename_i hlen
      split at h
      · cases h
      · rename_i hfind
        intro c hc
        have hsome := List.filterMap_length_eq_length.1 (not_not.1 hlen) c hc
        obtain ⟨route, hroute⟩ := Option.isSome_iff_exists.1 hsome
        have hreg := List.find?_eq_none.1 hfind route (List.mem_filterMap.2 ⟨c, hc, hroute⟩)
        exact ⟨route, hroute, by simpa using hreg⟩

theorem routeOf_regular {i : Nat} {routes : Nat → Option NodeRoute} (h : (routeOf w i routes).kind = .regular) :
    ∀ c ∈ kidsOf w i, ∃ route, routes c = some route ∧ route.kind = .regular := by
  unfold routeOf at h
  split at h
  · rename_i node hnode
    intro c hc
    rw [kidsOf, hnode] at hc
    obtain ⟨id, hid, rfl⟩ := List.mem_map.1 hc
    exact (estimateNode_regular h).2 id hid
  · cases h

/-- The pass empties its stack and gives every node a route. -/
theorem pass_total (w : SchemaIRWire) :
    (pass w).stack = [] ∧ ∀ i < w.nodes.length, ∃ route, (pass w).out i = some route := by
  obtain ⟨hend, order, hord, hmem⟩ := PostOrder.run_spec w.nodes.length (kidsOf w) (routeOf w)
  refine ⟨hend, fun i hi => ?_⟩
  exact Option.ne_none_iff_exists'.1 ((hord.mem_iff i).1 ((hmem i).2 hi))

/-- A route is computed from the routes of other nodes. -/
theorem pass_value {i : Nat} {route : NodeRoute} (h : (pass w).out i = some route) :
    ∃ view, route = routeOf w i view := by
  obtain ⟨-, order, hord, -⟩ := PostOrder.run_spec w.nodes.length (kidsOf w) (routeOf w)
  have hmem : i ∈ order := (hord.mem_iff i).2 fun hnone => Option.some_ne_none route (h.symm.trans hnone)
  obtain ⟨before, after, he⟩ := List.append_of_mem hmem
  exact ⟨_, Option.some.inj (h.symm.trans (hord.value before i after he))⟩

theorem getElem_analyze {i : Nat} {route : NodeRoute} (h : (analyze w)[i]? = some route) :
    (pass w).out i = some route := by
  rw [analyze, List.getElem?_map, Option.map_eq_some_iff] at h
  obtain ⟨j, hj, he⟩ := h
  obtain ⟨hlt, rfl⟩ := List.getElem?_eq_some_iff.1 hj
  rw [List.getElem_range] at he
  rw [List.length_range] at hlt
  obtain ⟨r, hr⟩ := (pass_total w).2 i hlt
  rw [hr, Option.getD_some] at he
  rw [hr, he]

/-- One `for_each_child` edge. -/
def Child (w : SchemaIRWire) (i j : Nat) : Prop := j ∈ kidsOf w i

/-- **Regular routes are closed under children and not on cycles.** -/
theorem regular_reach {i j : Nat} {route : NodeRoute} (h : (pass w).out i = some route) (hk : route.kind = .regular)
    (hij : Relation.TransGen (Child w) i j) :
    i ≠ j ∧ ∃ route', (pass w).out j = some route' ∧ route'.kind = .regular := by
  obtain ⟨-, order, hord, -⟩ := PostOrder.run_spec w.nodes.length (kidsOf w) (routeOf w)
  obtain ⟨hlt, h'⟩ := hord.reach (P := fun r => r.kind = .regular) (fun v view => routeOf_regular) h hk hij
  exact ⟨fun he => by rw [he] at hlt; exact Nat.lt_irrefl _ hlt, h'⟩

end

end Ir
end MaskForge
