import MaskForge.Lib.Components
import MaskForge.Lib.CountingSort
import MaskForge.Structured.Plan
/-!
# Cycles — lowering cycles of in-place applicators

`resolve_same_instance_cycles` finds the strongly connected components of the same-instance edges, and rewrites each
cyclic one: a union of references to itself is flattened to the branches that leave it, a component without a union
becomes the node that accepts nothing, and one that mixes unions and intersections is unrolled as many rounds as it has
members.  Recursion through `oneOf`, `not`, `dependentSchemas` or `unevaluated*` is refused.

Allocation is taken to succeed; the byte accounting and the width of a node id are kept.
-/
namespace MaskForge

/-- A failed compile: the error, the keyword or the shape it names, and the cap it hit. -/
structure PlanCompileFailure extends CompileError where
  keyword : Option String := none
  observed : Option String := none
  limit : Option (Nat × Nat) := none
  deriving DecidableEq

def invalidIr (what : String) : PlanCompileFailure :=
  { code := .malformed, stage := .l3, message := "invalid structured IR", observed := some what }

def nonMonotoneRecursion (what : String) : PlanCompileFailure :=
  { code := .nonMonotoneRecursion, stage := .l3, message := "non-monotone zero-consumption recursion",
    keyword := some what }

def planAllocationError : PlanCompileFailure :=
  { code := .internalLimitExceeded, stage := .l3, message := "structured plan allocation" }

/-- `resource_limit` on plan bytes. -/
def planBytesExceeded (observed cap : Nat) : PlanCompileFailure :=
  { code := .internalLimitExceeded, stage := .l3, message := "structured engine resource limit exceeded",
    limit := some (observed, cap) }

/-- `charge` on plan bytes. -/
def chargePlan (cap total delta : Nat) : Except PlanCompileFailure Nat :=
  if usizeMax < total + delta then .error (planBytesExceeded usizeMax cap)
  else if cap < total + delta then .error (planBytesExceeded (total + delta) cap)
  else .ok (total + delta)

/-- What the pass runs with: the cap on plan bytes, the bytes the node table grows by when a node is appended to one of
the given length, and what `build_from_regex` returns on `[^\x00-\xff]`, with the size of an engine. -/
structure LowerEnv where
  maxPlanBytes : Nat
  growth : Nat → Nat
  neverEngine : Except PlanCompileFailure RefEngine
  engineRetainedBytes : RefEngine → Nat

/-- The node table under rewriting, its byte account, and the node that accepts nothing once there is one. -/
structure NodeTable where
  nodes : List NodePlan
  retainedBytes : Nat
  never : Option Nat

/-- `size_of::<NodeId>()`. -/
def nodeIdBytes : Nat := 4

namespace NodeTable

def node (t : NodeTable) (u : Nat) : NodePlan := t.nodes[u]?.getD .unsupported

def children (t : NodeTable) (u : Nat) : List Nat := (t.node u).sameInstanceChildren

/-- `append_synthetic_node`. -/
def append (env : LowerEnv) (t : NodeTable) (node : NodePlan) : Except PlanCompileFailure (Nat × NodeTable) := do
  if u32Size ≤ t.nodes.length then .error planAllocationError
  let retainedBytes ← chargePlan env.maxPlanBytes t.retainedBytes (env.growth t.nodes.length)
  .ok (t.nodes.length, { t with nodes := t.nodes ++ [node], retainedBytes })

/-- `ensure_never_node`. -/
def ensureNever (env : LowerEnv) (t : NodeTable) : Except PlanCompileFailure (Nat × NodeTable) :=
  match t.never with
  | some node => .ok (node, t)
  | none => do
    let engine ← env.neverEngine
    let retainedBytes ← chargePlan env.maxPlanBytes t.retainedBytes (env.engineRetainedBytes engine)
    let (node, t) ← append env { t with retainedBytes } (.regular engine)
    .ok (node, { t with never := some node })

/-- A combinator made during lowering: its branches are charged, then its slot in the table. -/
def appendCombinator (env : LowerEnv) (t : NodeTable) (kind : CombinatorKind) (branches : List Nat) :
    Except PlanCompileFailure (Nat × NodeTable) := do
  let retainedBytes ← chargePlan env.maxPlanBytes t.retainedBytes (branches.length * nodeIdBytes)
  append env { t with retainedBytes } (.combinator ⟨kind, branches⟩)

/-- The bytes given back when a node is overwritten by a reference. -/
def released : NodePlan → Nat
  | .combinator plan => plan.branches.length * nodeIdBytes
  | _ => 0

/-- The members of a lowered component become references. -/
def link (t : NodeTable) : List (Nat × Nat) → NodeTable
  | [] => t
  | (index, target) :: rest =>
    link { t with
      nodes := t.nodes.set index (.ref target)
      retainedBytes := t.retainedBytes - released (t.node index) } rest

end NodeTable

open NodeTable

/-- Whether a member is a union and whether it is an intersection; any operator but these and references is refused. -/
def scanNode : NodePlan → Except PlanCompileFailure (Bool × Bool)
  | .ref _ | .dynamicRef _ _ => .ok (false, false)
  | .combinator ⟨.any, _⟩ => .ok (true, false)
  | .combinator ⟨.all, _⟩ => .ok (false, true)
  | .combinator ⟨.exactlyOne, _⟩ => .error (nonMonotoneRecursion "oneOf recursion")
  | .negation _ => .error (nonMonotoneRecursion "not recursion")
  | .object _ => .error (nonMonotoneRecursion "dependentSchemas recursion")
  | .unevaluated _ => .error (nonMonotoneRecursion "unevaluated recursion")
  | .regular _ | .array _ | .string _ | .stringEnum _ | .number _ _ | .unsupported =>
    .error (invalidIr "zero-consumption SCC contains a consuming node")

/-- `has_union` and `has_intersection` of a component. -/
def scanComponent (t : NodeTable) : List Nat → Except PlanCompileFailure (Bool × Bool)
  | [] => .ok (false, false)
  | index :: rest => do
    let (isUnion, isIntersection) ← scanNode (t.node index)
    let (hasUnion, hasIntersection) ← scanComponent t rest
    .ok (isUnion || hasUnion, isIntersection || hasIntersection)

/-- `Vec::dedup`: drops what equals its neighbour. -/
def dedupSorted : List Nat → List Nat
  | [] => []
  | [x] => [x]
  | x :: y :: rest => if x = y then dedupSorted (y :: rest) else x :: dedupSorted (y :: rest)

/-- The branches that leave a component, in order of id and each once. -/
def externalBranches (t : NodeTable) (component : List Nat) : List Nat :=
  dedupSorted ((component.flatMap (fun u => (t.children u).filter (fun v => decide (v ∉ component)))).insertionSort
    (· ≤ ·))

/-- The node a union component comes down to. -/
def unionTarget (env : LowerEnv) (component : List Nat) (t : NodeTable) : Except PlanCompileFailure (Nat × NodeTable) :=
  match externalBranches t component with
  | [] => t.ensureNever env
  | [only] => .ok (only, t)
  | external => t.appendCombinator env .any external

/-! ## Components that mix unions and intersections -/

/-- `PositiveCycleExpr`. -/
structure PositiveCycleExpr where
  kind : Option CombinatorKind
  children : List Nat

def positiveExpr (t : NodeTable) (index : Nat) : Except PlanCompileFailure PositiveCycleExpr :=
  match t.node index with
  | .ref target => .ok ⟨none, [target]⟩
  | .dynamicRef initialTarget _ => .ok ⟨none, [initialTarget]⟩
  | .combinator ⟨.all, branches⟩ => .ok ⟨some .all, branches⟩
  | .combinator ⟨.any, branches⟩ => .ok ⟨some .any, branches⟩
  | _ => .error (invalidIr "positive SCC contains a non-positive node")

/-- A branch with the members of the component replaced by their nodes of the round before. -/
def resolvedChild (component previous : List Nat) (child : Nat) : Nat :=
  ((component.zip previous).lookup child).getD child

def roundNode (env : LowerEnv) (t : NodeTable) : Option CombinatorKind → List Nat →
    Except PlanCompileFailure (Nat × NodeTable)
  | _, [only] => .ok (only, t)
  | some kind, resolved => t.appendCombinator env kind resolved
  | none, _ => .error (invalidIr "reference has multiple targets")

/-- One round: a node for each member, built on the nodes of the round before. -/
def round (env : LowerEnv) (component previous : List Nat) : List PositiveCycleExpr → NodeTable →
    Except PlanCompileFailure (List Nat × NodeTable)
  | [], t => .ok ([], t)
  | e :: rest, t => do
    let (node, t) ← roundNode env t e.kind (e.children.map (resolvedChild component previous))
    let (current, t) ← round env component previous rest t
    .ok (node :: current, t)

def rounds (env : LowerEnv) (component : List Nat) (exprs : List PositiveCycleExpr) : Nat → List Nat → NodeTable →
    Except PlanCompileFailure (List Nat × NodeTable)
  | 0, previous, t => .ok (previous, t)
  | k + 1, previous, t => do
    let (current, t) ← round env component previous exprs t
    rounds env component exprs k current t

def lowerMixedPositiveComponent (env : LowerEnv) (component : List Nat) (t : NodeTable) :
    Except PlanCompileFailure NodeTable := do
  let (bottom, t) ← t.ensureNever env
  let exprs ← component.mapM (positiveExpr t)
  let (final, t) ← rounds env component exprs component.length (List.replicate component.length bottom) t
  .ok (t.link (component.zip final))

def lowerPositiveComponent (env : LowerEnv) (component : List Nat) (t : NodeTable) :
    Except PlanCompileFailure NodeTable := do
  let (union, intersection) ← scanComponent t component
  if union && intersection then lowerMixedPositiveComponent env component t
  else do
    let (target, t) ← if union then unionTarget env component t else t.ensureNever env
    .ok (t.link (component.map (fun index => (index, target))))

/-! ## The pass -/

/-- More than one member, or one that applies itself. -/
def cyclic (t : NodeTable) (component : List Nat) : Bool :=
  match component with
  | [only] => decide (only ∈ t.children only)
  | _ => true

def lowerComponents (env : LowerEnv) : List (List Nat) → NodeTable → Except PlanCompileFailure NodeTable
  | [], t => .ok t
  | component :: rest, t =>
    if cyclic t component then do
      let t ← lowerPositiveComponent env component t
      lowerComponents env rest t
    else lowerComponents env rest t

def compiledAt (reachable : List Bool) (u : Nat) : Bool := reachable[u]?.getD false

/-- Every same-instance child of a compiled node is compiled. -/
def checkChildren (t : NodeTable) (reachable : List Bool) : List Nat → Except PlanCompileFailure Unit
  | [] => .ok ()
  | index :: rest =>
    if compiledAt reachable index = false then checkChildren t reachable rest
    else if t.nodes.length ≤ index then .error (invalidIr "same-instance node is invalid")
    else if (t.children index).all (compiledAt reachable) then checkChildren t reachable rest
    else .error (invalidIr "reachable same-instance child is not compiled")

/-- The edges, each as its target and its source, in the order both passes over the table meet them. -/
def reverseEdges (t : NodeTable) (reachable : List Bool) : List (Nat × Nat) :=
  (List.range reachable.length).flatMap (fun index =>
    if compiledAt reachable index then (t.children index).map (fun target => (target, index)) else [])

/-- `scc_temporary`: six words, a visit frame and two flags a node, and both arrays of edges. -/
def sccTemporary (nodeCount edgeCount : Nat) : Nat := nodeCount * (8 * 6 + 16 + 2) + 8 + edgeCount * 8 + edgeCount * 4

/-- The row of a node in the packed reverse edges. -/
def reverseRow (t : NodeTable) (reachable : List Bool) (u : Nat) : List Nat :=
  CountingSort.slice (CountingSort.scatter 0 reachable.length (reverseEdges t reachable)).out
    (CountingSort.offset (reverseEdges t reachable) u) (CountingSort.offset (reverseEdges t reachable) (u + 1))

def planComponents (t : NodeTable) (reachable : List Bool) : List (List Nat) :=
  Components.components t.children (reverseRow t reachable) reachable.length (compiledAt reachable)

def resolveSameInstanceCycles (env : LowerEnv) (reachable : List Bool) (nodes : List NodePlan) (retainedBytes : Nat) :
    Except PlanCompileFailure NodeTable := do
  let t : NodeTable := ⟨nodes, retainedBytes, none⟩
  checkChildren t reachable (List.range reachable.length)
  let observed := retainedBytes + sccTemporary reachable.length (reverseEdges t reachable).length
  if usizeMax < observed then .error planAllocationError
  if env.maxPlanBytes < observed then .error (planBytesExceeded observed env.maxPlanBytes)
  lowerComponents env (planComponents t reachable) t

end MaskForge
