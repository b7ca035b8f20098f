import MaskForge.Automaton.RefEngine
/-!
# Residual — how many words each state of an engine accepts

`residual_cardinalities` strips the states without live cycles in reverse: a state whose edges all lead to stripped
states is counted from them, and what is never stripped keeps the greatest count.  Sums and products saturate.
-/
namespace MaskForge

open CountingSort (slice)

def RefEngine.limitErr : CompileError :=
  ⟨.internalLimitExceeded, .l3, "reference DFA state count exceeds the materialization limit"⟩

/-- `u64::saturating_add` and `u64::saturating_mul`. -/
def satAdd64 (a b : Nat) : Nat := min (a + b) u64Max

def satMul64 (a b : Nat) : Nat := min (a * b) u64Max

/-- The states still to strip, how many edges each has left, and the stripped ones in order. -/
structure Strip where
  queue : List Nat
  remaining : List Nat
  order : List Nat

/-- One edge into the stripped state goes. -/
def dropEdge (s : Strip) (source : Nat) : Except CompileError Strip :=
  match s.remaining[source]? with
  | some (left + 1) =>
    .ok { s with
      remaining := s.remaining.set source left
      queue := if source ≠ dead ∧ left = 0 then s.queue ++ [source] else s.queue }
  | _ => .error RefEngine.limitErr

def stripAll (predecessors : Nat → List Nat) : Nat → Strip → Except CompileError Strip
  | 0, s => .ok s
  | f + 1, s => match s.queue with
    | [] => .ok s
    | target :: rest => do
      let s ← (predecessors target).foldlM dropEdge { s with queue := rest, order := s.order ++ [target] }
      stripAll predecessors f s

/-- A stripped state's count from its targets' counts. -/
def cardinalityOf (members : List (List Byte)) (cardinalities : List Nat) (accepting : Bool) (row : List (Nat × Nat)) :
    Nat :=
  row.foldl (fun count edge =>
    satAdd64 count (satMul64 (cardinalities[edge.2]?.getD 0) ((members[edge.1]?.map List.length).getD 0)))
    (if accepting then 1 else 0)

def residualCardinalities (rowOffsets : List Nat) (edges : List (Nat × Nat)) (accepting : List Bool)
    (members : List (List Byte)) : Except CompileError (List Nat) := do
  let row := fun s => slice edges (rowOffsets[s]?.getD 0) (rowOffsets[s + 1]?.getD 0)
  let states := List.range accepting.length
  let pairs := states.flatMap fun s => (row s).map fun edge => (edge.2, s)
  let predecessors := (CountingSort.scatter 0 accepting.length pairs).out
  let predecessorsOf := fun t => slice predecessors (CountingSort.offset pairs t) (CountingSort.offset pairs (t + 1))
  let remaining := states.map fun s => (row s).length
  let queue := (states.drop 1).filter fun s => (row s).isEmpty
  let strip ← stripAll predecessorsOf accepting.length ⟨queue, remaining, []⟩
  return strip.order.foldl
    (fun cardinalities s => cardinalities.set s (cardinalityOf members cardinalities (accepting[s]?.getD false)
      (row s)))
    ((List.replicate accepting.length u64Max).set dead 0)

end MaskForge
