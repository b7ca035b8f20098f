import MaskForge.Automaton.RefEngine
import MaskForge.Ir.Schema
/-!
# Plan — the compiled plan the incremental engine walks

A plan is a table of nodes.  Consuming nodes (regular, object, array, string, number) read a value of their own;
in-place nodes (references, combinators, negation, unevaluated) apply other nodes to the value at hand, and an object
applies its `dependentSchemas` that way too.  `sameInstanceChildren` lists the edges of the second kind: a cycle of
them consumes no input, and is what `resolve_same_instance_cycles` removes.
-/
namespace MaskForge

/-- Decoded text: Unicode scalars. -/
abbrev Text := List Char

/-- Texts are compared by their characters. -/
instance : LawfulBEq Text := inferInstance

structure PropertyPlan where
  value : Nat
  maybeSatisfiable : Bool

structure CompiledPropertyPattern where
  engine : RefEngine
  value : Nat
  maybeSatisfiable : Bool

inductive AdditionalPlan where
  | forbid
  | openAny
  | allowAny
  | schema (node : Nat)

structure DependentRequiredRule where
  trigger : Nat
  requiredIds : List Nat

structure DependentRequiredPlan where
  nameByText : List (Text × Nat)
  rules : List DependentRequiredRule
  nameCount : Nat

structure ObjectPlan where
  knownByName : List (Text × Nat)
  known : List PropertyPlan
  patterns : List CompiledPropertyPattern
  viablePattern : Option RefEngine
  requiredTemplate : List Nat
  additional : AdditionalPlan
  propertyNames : Option Nat
  minProperties : Option Nat
  maxProperties : Option Nat
  dependentByName : List (Text × Nat)
  dependentSchemas : List Nat
  dependentRequired : Option DependentRequiredPlan

inductive TailPlan where
  | closed
  | schema (node : Nat)
  | allowAny

inductive ContainsMatch where
  | never
  | always
  | schema (node : Nat)

structure ContainsPlan where
  matchOn : ContainsMatch
  min : Nat
  max : Option Nat

structure StringPlan where
  minScalars : Nat
  maxScalars : Option Nat
  pattern : Option RefEngine

/-- Bounds are `(coefficient, scale, exclusive)`, the divisor `(coefficient, scale)`. -/
structure NumberPlan where
  integerOnly : Bool
  minimum : Option (Int × Nat × Bool)
  maximum : Option (Int × Nat × Bool)
  multipleOf : Option (Nat × Nat)

structure StringEnumPlan where
  members : List (List Byte)

inductive CombinatorKind where
  | all
  | any
  | exactlyOne
  deriving DecidableEq, Repr

structure CombinatorPlan where
  kind : CombinatorKind
  branches : List Nat
  deriving DecidableEq

structure ArrayPlan where
  prefixItems : List Nat
  tail : TailPlan
  minItems : Nat
  maxItems : Option Nat
  uniqueItems : Bool
  finiteUniqueCapacity : Option Nat
  contains : Option ContainsPlan
  tailAnnotates : Bool

structure UnevaluatedPlan where
  kind : UnevaluatedKind
  scope : Nat
  unevaluated : Nat
  rejectsUnevaluated : Bool

inductive NodePlan where
  | regular (engine : RefEngine)
  | object (plan : ObjectPlan)
  | array (plan : ArrayPlan)
  | string (plan : StringPlan)
  | stringEnum (plan : StringEnumPlan)
  | number (engine : RefEngine) (constraint : NumberPlan)
  | ref (target : Nat)
  | dynamicRef (initialTarget anchor : Nat)
  | combinator (plan : CombinatorPlan)
  | negation (inner : Nat)
  | unevaluated (plan : UnevaluatedPlan)
  | unsupported

namespace NodePlan

/-- The edges that apply another node to the same value; a dynamic reference counts by its initial target. -/
def sameInstanceChildren : NodePlan → List Nat
  | ref target => [target]
  | dynamicRef initialTarget _ => [initialTarget]
  | negation inner => [inner]
  | combinator plan => plan.branches
  | object plan => plan.dependentSchemas
  | unevaluated plan => [plan.scope]
  | regular _ | number _ _ | array _ | string _ | stringEnum _ | unsupported => []

end NodePlan

def AdditionalPlan.refs : AdditionalPlan → List Nat
  | .schema node => [node]
  | .forbid | .openAny | .allowAny => []

def TailPlan.refs : TailPlan → List Nat
  | .schema node => [node]
  | .closed | .allowAny => []

def ContainsMatch.refs : ContainsMatch → List Nat
  | .schema node => [node]
  | .never | .always => []

/-- Every node a node applies, to the value at hand or to a part of it. -/
def NodePlan.refs : NodePlan → List Nat
  | .object plan => plan.dependentSchemas ++ plan.known.map PropertyPlan.value ++
      plan.patterns.map CompiledPropertyPattern.value ++ plan.additional.refs ++ plan.propertyNames.toList
  | .array plan => plan.prefixItems ++ plan.tail.refs ++ (plan.contains.map (fun c => c.matchOn.refs)).getD []
  | .unevaluated plan => [plan.scope, plan.unevaluated]
  | node => node.sameInstanceChildren

/-! ## Dynamic scopes -/

/-- One binding of a dynamic anchor's name by a resource. -/
structure DynamicBinding where
  name : Nat
  resource : Nat
  target : Nat
  deriving DecidableEq

/-- The resource of every node and the dynamic anchors: what dynamic references are resolved by. -/
structure DynamicPlan where
  enabled : Bool
  rootResource : Nat
  nodeResources : List Nat
  anchorNames : List (Option Nat)
  bindings : List DynamicBinding

namespace DynamicPlan

/-- A node past the compiled ones is synthetic, and belongs to the root's resource. -/
def nodeResource (d : DynamicPlan) (node : Nat) : Nat := d.nodeResources[node]?.getD d.rootResource

def dynamicTarget (d : DynamicPlan) (anchor resource : Nat) : Option Nat :=
  (d.anchorNames[anchor]?.join).bind (fun name =>
    (d.bindings.find? (fun b => b.name == name && b.resource == resource)).map DynamicBinding.target)

/-- `ScopeArena::enter` on a chain of resources, innermost first: entering the resource one is in changes nothing. -/
def enterChain (chain : List Nat) (resource : Nat) : List Nat :=
  if chain.head? = some resource then chain else resource :: chain

/-- The walk of `resolve_dynamic_target` up the parent chain: the outermost binding wins. -/
def resolveChain (d : DynamicPlan) (anchor : Nat) : Nat → List Nat → Nat
  | selected, [] => selected
  | selected, resource :: parents => resolveChain d anchor ((d.dynamicTarget anchor resource).getD selected) parents

/-- A dynamic scope by what it can resolve: its resources, outermost first, each once. -/
abbrev Scope := List Nat

def enter (scope : Scope) (resource : Nat) : Scope := if resource ∈ scope then scope else scope ++ [resource]

def resolve (d : DynamicPlan) (initialTarget anchor : Nat) (scope : Scope) : Nat :=
  (scope.findSome? (d.dynamicTarget anchor)).getD initialTarget

theorem enter_idem (scope : Scope) (r : Nat) : enter (enter scope r) r = enter scope r := by
  unfold enter
  split
  · rfl
  · rw [if_pos (by simp)]

theorem enter_of_mem {scope : Scope} {r : Nat} (h : r ∈ scope) : enter scope r = scope := if_pos h

/-- Entering never changes where a scope started. -/
theorem head?_enter {scope : Scope} {root : Nat} (r : Nat) (h : scope.head? = some root) :
    (enter scope r).head? = some root := by
  unfold enter
  split
  · exact h
  · rw [List.head?_append, h]
    rfl

end DynamicPlan
end MaskForge
