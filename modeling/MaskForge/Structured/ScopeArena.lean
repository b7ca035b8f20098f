import MaskForge.Lib.Linked
import MaskForge.Primitives
import MaskForge.Structured.Plan
/-!
# ScopeArena — the dynamic scopes of a session and how references are resolved in them

Scopes are reference-counted slots of a fixed arena, each with the resource it entered and the slot it was entered
from. A freed slot goes to the free list; taking it again counts its generation up.  A memo a dynamic anchor remembers
the last resolution by slot, generation and initial target.  `u32::MAX` as a slot id is `none`: no arena is that
large.  The atomics are read and written here one operation at a time.
-/
namespace MaskForge

inductive ScopeLimitKind where
  | activeValidators
  | dynamicScopeDepth
  deriving DecidableEq, Repr

structure ScopeError where
  kind : ScopeLimitKind
  observed : Nat
  limit : Nat
  deriving DecidableEq, Repr

/-- What the engine reads of a plan while it resolves references. -/
structure ReferencePlan where
  nodes : List NodePlan
  dynamic : DynamicPlan
  maxDynamicScopeDepth : Nat
  maxActiveValidators : Nat

structure ScopeSlot where
  resource : Nat
  parent : Option Nat
  depth : Nat
  refs : Nat
  nextFree : Option Nat
  deriving DecidableEq, Repr

structure DynamicMemoSlot where
  version : Nat
  scopeIndex : Option Nat
  scopeGeneration : Nat
  initialTarget : Nat
  target : Nat
  deriving DecidableEq, Repr

structure DynamicResolutionKey where
  scopeIndex : Nat
  scopeGeneration : Nat
  anchor : Nat
  initialTarget : Nat
  deriving DecidableEq, Repr

structure ScopeArena where
  slots : List ScopeSlot
  generations : List Nat
  dynamicMemo : List DynamicMemoSlot
  freeHead : Option Nat
  deriving DecidableEq, Repr

namespace ScopeArena

/-! ## The arena -/

/-- `new_with_anchor_capacity`: at least one slot, all of them free, in order. -/
def new (capacity anchorCapacity : Nat) : Except ScopeError ScopeArena :=
  let capacity := max capacity 1
  if u32Size ≤ capacity then .error ⟨.activeValidators, capacity, u32Size - 1⟩
  else .ok {
    slots := (List.range capacity).map (fun index => ⟨0, none, 0, 0, if index + 1 < capacity then some (index + 1)
      else none⟩)
    generations := List.replicate capacity 0
    dynamicMemo := List.replicate anchorCapacity ⟨0, none, 0, u32Size - 1, u32Size - 1⟩
    freeHead := some 0 }

def error (a : ScopeArena) : ScopeError := ⟨.activeValidators, usizeMax, a.slots.length⟩

def slot (a : ScopeArena) (id : Nat) : Except ScopeError ScopeSlot :=
  match a.slots[id]? with
  | some slot => .ok slot
  | none => .error a.error

def setSlot (a : ScopeArena) (id : Nat) (slot : ScopeSlot) : ScopeArena := { a with slots := a.slots.set id slot }

/-- The head of the free list becomes a scope. -/
def taken (a : ScopeArena) (id generation : Nat) (slot : ScopeSlot) (parent : Option Nat) (resource depth : Nat) :
    ScopeArena :=
  { a with
    freeHead := slot.nextFree
    generations := a.generations.set id (generation + 1)
    slots := a.slots.set id { slot with resource, parent, depth, refs := 1 } }

/-- The loop of `allocate`: the head is taken off the free list; one whose generation cannot be counted up is lost. -/
def allocateLoop (parent : Option Nat) (resource depth : Nat) : Nat → ScopeArena → Except ScopeError Nat × ScopeArena
  | 0, a => (.error a.error, a)
  | rounds + 1, a => match a.freeHead with
    | none => (.error ⟨.activeValidators, satAdd a.slots.length 1, a.slots.length⟩, a)
    | some head => match a.slots[head]?, a.generations[head]? with
      | some slot, some generation =>
        if generation < u64Max then (.ok head, a.taken head generation slot parent resource depth)
        else allocateLoop parent resource depth rounds { a with freeHead := slot.nextFree }
      | _, _ => (.error a.error, a)

/-- `allocate`.  Every round takes a slot off the free list, which no slot is on twice. -/
def allocate (a : ScopeArena) (parent : Option Nat) (resource depth : Nat) : Except ScopeError Nat × ScopeArena :=
  allocateLoop parent resource depth (a.slots.length + 1) a

def root (a : ScopeArena) (resource : Nat) : Except ScopeError Nat × ScopeArena := a.allocate none resource 1

/-- `retain`, and the clone of a lease, which expects it to succeed. -/
def retain (a : ScopeArena) (id : Nat) : Except ScopeError ScopeArena := do
  let slot ← a.slot id
  if slot.refs = 0 ∨ usizeMax ≤ slot.refs then .error a.error
  else .ok (a.setSlot id { slot with refs := slot.refs + 1 })

/-- `fetch_sub(1)`. -/
def fetchSub (refs : Nat) : Nat := if refs = 0 then usizeMax else refs - 1

/-- The slot goes to the free list. -/
def freed (a : ScopeArena) (id : Nat) (slot : ScopeSlot) : ScopeArena :=
  { a.setSlot id { slot with refs := 0, nextFree := a.freeHead } with freeHead := some id }

/-- The loop of `release`: the last reference frees the slot and gives back the one it holds to its parent. -/
def releaseLoop : Nat → ScopeArena → Nat → ScopeArena
  | 0, a, _ => a
  | rounds + 1, a, id => match a.slots[id]? with
    | none => a
    | some slot =>
      if slot.refs ≠ 1 then a.setSlot id { slot with refs := fetchSub slot.refs }
      else match slot.parent with
        | none => a.freed id slot
        | some parent => releaseLoop rounds (a.freed id slot) parent

/-- `release`.  Every round but the last frees a slot. -/
def release (a : ScopeArena) (id : Nat) : ScopeArena := releaseLoop (a.slots.length + 1) a id

/-- `enter`: the resource one is in is not entered again. -/
def enter (a : ScopeArena) (parent resource maxDepth : Nat) : Except ScopeError Nat × ScopeArena :=
  match a.slot parent with
  | .error e => (.error e, a)
  | .ok slot =>
    if slot.resource = resource then match a.retain parent with
      | .error e => (.error e, a)
      | .ok a => (.ok parent, a)
    else if u32Size ≤ slot.depth + 1 then (.error ⟨.dynamicScopeDepth, usizeMax, maxDepth⟩, a)
    else if maxDepth < slot.depth + 1 then (.error ⟨.dynamicScopeDepth, slot.depth + 1, maxDepth⟩, a)
    else match a.retain parent with
      | .error e => (.error e, a)
      | .ok a => match a.allocate (some parent) resource (slot.depth + 1) with
        | (.ok lease, a) => (.ok lease, a)
        | (.error e, a) => (.error e, a.release parent)

/-! ## The memo -/

def generation (a : ScopeArena) (id : Nat) : Except ScopeError Nat :=
  match a.generations[id]? with
  | some generation => .ok generation
  | none => .error a.error

/-- A version is odd while it is being written. -/
def dynamicMemoGet (a : ScopeArena) (key : DynamicResolutionKey) : Option Nat :=
  match a.dynamicMemo[key.anchor]? with
  | none => none
  | some slot =>
    if slot.version % 2 = 0 ∧ slot.scopeIndex = some key.scopeIndex ∧ slot.scopeGeneration = key.scopeGeneration ∧
        slot.initialTarget = key.initialTarget then some slot.target
    else none

def dynamicMemoStore (a : ScopeArena) (key : DynamicResolutionKey) (target : Nat) : ScopeArena :=
  match a.dynamicMemo[key.anchor]? with
  | none => a
  | some slot =>
    if slot.version % 2 ≠ 0 ∨ u64Max - 2 < slot.version then a
    else
      let stored := ⟨slot.version + 2, some key.scopeIndex, key.scopeGeneration, key.initialTarget, target⟩
      { a with dynamicMemo := a.dynamicMemo.set key.anchor stored }

end ScopeArena

/-! ## Resolving references -/

namespace ReferencePlan

def referenceResolutionError (p : ReferencePlan) : ScopeError := ⟨.activeValidators, usizeMax, p.maxActiveValidators⟩

/-- `node_resource`: a synthetic node is in the resource of the root. -/
def nodeResource (p : ReferencePlan) (node : Nat) : Option Nat :=
  if node < p.nodes.length then some (p.dynamic.nodeResource node) else none

/-- The walk of `resolve_dynamic_target`, with what is left of the depth limit: the outermost binding wins. -/
def walkLoop (p : ReferencePlan) (a : ScopeArena) (anchor : Nat) : Nat → Nat → Option Nat → Except ScopeError Nat
  | _, selected, none => .ok selected
  | remaining, selected, some id => do
    let slot ← a.slot id
    match remaining with
    | 0 => .error ⟨.dynamicScopeDepth, p.maxDynamicScopeDepth + 1, p.maxDynamicScopeDepth⟩
    | remaining + 1 =>
      walkLoop p a anchor remaining ((p.dynamic.dynamicTarget anchor slot.resource).getD selected) slot.parent

def resolveDynamicTarget (p : ReferencePlan) (initialTarget anchor scope : Nat) (a : ScopeArena) :
    Except ScopeError Nat × ScopeArena :=
  match a.generation scope with
  | .error e => (.error e, a)
  | .ok generation =>
    let key : DynamicResolutionKey := ⟨scope, generation, anchor, initialTarget⟩
    match a.dynamicMemoGet key with
    | some target => (.ok target, a)
    | none => match walkLoop p a anchor p.maxDynamicScopeDepth initialTarget (some scope) with
      | .error e => (.error e, a)
      | .ok selected => (.ok selected, a.dynamicMemoStore key selected)

/-- The scope of a node: its resource is entered, and the lease one came with is dropped for the new one. -/
def enterNode (p : ReferencePlan) (resource scope : Nat) (a : ScopeArena) : Except ScopeError Nat × ScopeArena :=
  if p.dynamic.enabled then match a.enter scope resource p.maxDynamicScopeDepth with
    | (.ok lease, a) => (.ok lease, a.release scope)
    | (.error e, a) => (.error e, a)
  else (.ok scope, a)

/-- Where a reference leads; nothing for a node that is none. -/
def referenceTarget (p : ReferencePlan) (scope : Nat) :
    NodePlan → ScopeArena → Except ScopeError (Option Nat) × ScopeArena
  | .ref target, a => (.ok (some target), a)
  | .dynamicRef initialTarget anchor, a => match p.resolveDynamicTarget initialTarget anchor scope a with
    | (.ok target, a) => (.ok (some target), a)
    | (.error e, a) => (.error e, a)
  | _, a => (.ok none, a)

/-- The loop of `resolve_runtime_node`, with the hops that are left.  It owns its lease: an error drops it. -/
def resolveNodeLoop (p : ReferencePlan) (remaining node scope : Nat) (a : ScopeArena) :
    Except ScopeError (Nat × Nat) × ScopeArena :=
  match p.nodes[node]?, p.nodeResource node with
  | some entry, some resource => match p.enterNode resource scope a with
    | (.error e, a) => (.error e, a.release scope)
    | (.ok scope, a) => match p.referenceTarget scope entry a with
      | (.error e, a) => (.error e, a.release scope)
      | (.ok none, a) => (.ok (node, scope), a)
      | (.ok (some target), a) => match remaining with
        | 0 => (.error p.referenceResolutionError, a.release scope)
        | remaining + 1 => resolveNodeLoop p remaining target scope a
  | _, _ => (.error p.referenceResolutionError, a.release scope)

/-- `resolve_runtime_node`: as many hops as there are nodes. -/
def resolveRuntimeNode (p : ReferencePlan) (start scope : Nat) (a : ScopeArena) :
    Except ScopeError (Nat × Nat) × ScopeArena :=
  p.resolveNodeLoop p.nodes.length start scope a

end ReferencePlan
end MaskForge
