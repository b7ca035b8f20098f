import MaskForge.Automaton.RefEngine
import MaskForge.Lib.Explore
/-!
# Graph — the deterministic byte graph that composed automata end in

A composed automaton is a list of states, each accepting or not, with one edge for each byte it goes on with.
`from_byte_states` checks the list and lays it out as arrays; a graph it returns steps as the list does
(`AutomatonGraph.Lays`).
-/
namespace MaskForge

open CountingSort (slice start slice_flatten)

def allBytes : List Byte := (List.range 256).map UInt8.ofNat

theorem mem_allBytes (b : Byte) : b ∈ allBytes := mem_every b

theorem getElem?_allBytes (b : Byte) : allBytes[b.toNat]? = some b := by
  rw [allBytes, List.getElem?_map, List.getElem?_range b.toNat_lt, Option.map_some, UInt8.ofNat_toNat]

theorem length_allBytes : allBytes.length = 256 := by rw [allBytes, List.length_map, List.length_range]

theorem nodup_allBytes : allBytes.Nodup := by
  refine List.pairwise_iff_getElem.2 fun i j hi hj hij heq => ?_
  rw [length_allBytes] at hi hj
  simp only [allBytes, List.getElem_map, List.getElem_range] at heq
  have hval := congrArg UInt8.toNat heq
  rw [UInt8.toNat_ofNat', UInt8.toNat_ofNat'] at hval
  omega

attribute [irreducible] allBytes

def maxGraphStates : Nat := 2 ^ 16

def maxGraphEdges : Nat := 2 ^ 20

/-- Whether a state accepts, and its edges. -/
abbrev ByteState := Bool × List (Byte × Nat)

abbrev ByteClass := BitVec 256

def ByteClass.singleton (b : Byte) : ByteClass := BitVec.twoPow 256 b.toNat

def ByteClass.contains (c : ByteClass) (b : Byte) : Bool := c.getLsbD b.toNat

structure GraphState where
  edgeStart : Nat
  edgeLen : Nat
  accepting : Bool

structure GraphEdge where
  byteClass : ByteClass
  target : Nat

structure AutomatonGraph where
  states : List GraphState
  edges : List GraphEdge
  start : Nat

def graphLimit : CompileError := ⟨.internalLimitExceeded, .l3, "automaton graph cap"⟩

def graphError (message : String) : CompileError := ⟨.malformed, .l3, message⟩

/-- `slice::get` of a range. -/
def getRange {α : Type} (l : List α) (lo hi : Nat) : Option (List α) :=
  if lo ≤ hi ∧ hi ≤ l.length then some (slice l lo hi) else none

/-- The edges of one state, each byte once and each target in range. -/
def pushEdges (count : Nat) : List Byte → List (Byte × Nat) → List GraphEdge → Except CompileError (List GraphEdge)
  | _, [], edges => .ok edges
  | seen, (b, target) :: rest, edges =>
    if count ≤ target ∨ b ∈ seen then .error (graphError "graph is not deterministic")
    else pushEdges count (b :: seen) rest (edges ++ [⟨ByteClass.singleton b, target⟩])

def pushStates (count : Nat) : List ByteState → List GraphState → List GraphEdge →
    Except CompileError (List GraphState × List GraphEdge)
  | [], states, edges => .ok (states, edges)
  | (accepting, row) :: rest, states, edges => do
    let edgeStart ← checkedU32 graphLimit edges.length
    let edges ← pushEdges count [] row edges
    let edgeLen ← checkedU32 graphLimit row.length
    pushStates count rest (states ++ [⟨edgeStart, edgeLen, accepting⟩]) edges

namespace AutomatonGraph

def fromByteStates (states : List ByteState) (start : Nat) : Except CompileError AutomatonGraph :=
  if states.isEmpty ∨ states.length ≤ start then .error (graphError "graph start state is out of range")
  else if maxGraphStates < states.length then .error graphLimit
  else if maxGraphEdges < (states.map fun s => s.2.length).sum then .error graphLimit
  else do
    let (graphStates, graphEdges) ← pushStates states.length states [] []
    return ⟨graphStates, graphEdges, start⟩

def transition (g : AutomatonGraph) (s : Nat) (b : Byte) : Option Nat := do
  let row ← g.states[s]?
  let edges ← getRange g.edges row.edgeStart (row.edgeStart + row.edgeLen)
  edges.findSome? fun edge => if edge.byteClass.contains b then some edge.target else none

def isAccepting (g : AutomatonGraph) (s : Nat) : Bool := (g.states[s]?.map GraphState.accepting).getD false

/-- Whether some bytes lead from a state to an accepting one. -/
def acceptsFrom (g : AutomatonGraph) : Nat → List Byte → Bool
  | s, [] => g.isAccepting s
  | s, b :: bs => match g.transition s b with
    | some t => g.acceptsFrom t bs
    | none => false

def accepts (g : AutomatonGraph) (w : List Byte) : Bool := g.acceptsFrom g.start w

/-- An edge of the list, as the graph holds it. -/
def edgeOf (e : Byte × Nat) : GraphEdge := ⟨ByteClass.singleton e.1, e.2⟩

/-- The rows of the list, as the graph holds them. -/
def rowsOf (states : List ByteState) : List (List GraphEdge) := states.map fun s => s.2.map edgeOf

/-- **A graph lays out a list of states**: its arrays are the rows of the list end to end. -/
structure Lays (g : AutomatonGraph) (states : List ByteState) : Prop where
  edgesEq : g.edges = (rowsOf states).flatten
  statesEq : g.states = states.mapIdx fun s state => ⟨CountingSort.start (rowsOf states) s, state.2.length, state.1⟩
  startLt : g.start < states.length
  few : states.length ≤ maxGraphStates
  targets : ∀ state ∈ states, ∀ e ∈ state.2, e.2 < states.length
  bytes : ∀ state ∈ states, (state.2.map Prod.fst).Nodup

end AutomatonGraph

theorem mem_of_lookup {row : List (Byte × Nat)} {b : Byte} {t : Nat} (h : row.lookup b = some t) : (b, t) ∈ row := by
  obtain ⟨l, r, rfl, _⟩ := List.lookup_eq_some_iff.1 h
  exact List.mem_append_right _ List.mem_cons_self

theorem lookup_of_mem {row : List (Byte × Nat)} {b : Byte} {t : Nat} (hnodup : (row.map Prod.fst).Nodup)
    (h : (b, t) ∈ row) :
    row.lookup b = some t := by
  obtain ⟨l, r, rfl⟩ := List.append_of_mem h
  rw [List.map_append, List.map_cons, List.nodup_append] at hnodup
  refine List.lookup_eq_some_iff.2 ⟨l, r, rfl, fun p hp => ?_⟩
  have hne := hnodup.2.2 p.1 (List.mem_map_of_mem hp) b List.mem_cons_self
  exact bne_iff_ne.2 (Ne.symm hne)

theorem ByteClass.contains_singleton (a b : Byte) : (ByteClass.singleton a).contains b = decide (a = b) := by
  have hlt : a.toNat < 256 := a.toNat_lt
  unfold ByteClass.contains ByteClass.singleton
  rw [BitVec.getLsbD_twoPow, decide_eq_true hlt, Bool.true_and]
  exact decide_eq_decide.2 UInt8.toNat_inj

theorem pushEdges_ok {count : Nat} : ∀ {row : List (Byte × Nat)} {seen : List Byte} {edges out : List GraphEdge},
    pushEdges count seen row edges = .ok out → out = edges ++ row.map AutomatonGraph.edgeOf ∧ (∀ e ∈ row, e.2 < count) ∧
      (row.map Prod.fst).Nodup ∧ ∀ e ∈ row, e.1 ∉ seen
  | [], _, edges, out, h => by
    cases h
    simp
  | (b, target) :: row, seen, edges, out, h => by
    rw [pushEdges] at h
    split at h
    · cases h
    · rename_i hc
      rw [not_or, Nat.not_le] at hc
      obtain ⟨rfl, htargets, hnodup, hfresh⟩ := pushEdges_ok h
      refine ⟨?_, ?_, ?_, ?_⟩
      · rw [List.append_assoc]
        rfl
      · intro e he
        rcases List.mem_cons.1 he with rfl | he
        · exact hc.1
        · exact htargets e he
      · refine List.nodup_cons.2 ⟨fun hmem => ?_, hnodup⟩
        obtain ⟨e, he, heq⟩ := List.mem_map.1 hmem
        exact hfresh e he (heq ▸ List.mem_cons_self)
      · intro e he
        rcases List.mem_cons.1 he with rfl | he
        · exact hc.2
        · exact fun hmem => hfresh e he (List.mem_cons_of_mem _ hmem)

theorem pushStates_ok {count : Nat} {all : List ByteState} :
    ∀ {rest : List ByteState} (done : List ByteState) {states : List GraphState}
    {edges : List GraphEdge} {out : List GraphState × List GraphEdge}, done ++ rest = all →
    edges = (AutomatonGraph.rowsOf done).flatten →
    states = done.mapIdx (fun s state => ⟨start (AutomatonGraph.rowsOf all) s, state.2.length, state.1⟩) →
    pushStates count rest states edges = .ok out →
      out.2 = (AutomatonGraph.rowsOf all).flatten ∧
      out.1 = all.mapIdx (fun s state => ⟨start (AutomatonGraph.rowsOf all) s, state.2.length, state.1⟩) ∧
      ∀ state ∈ rest, (∀ e ∈ state.2, e.2 < count) ∧ (state.2.map Prod.fst).Nodup
  | [], done, states, edges, out, hall, hedges, hstates, h => by
    cases h
    rw [List.append_nil] at hall
    subst hall
    exact ⟨hedges, hstates, fun _ h => absurd h List.not_mem_nil⟩
  | (accepting, row) :: rest, done, states, edges, out, hall, hedges, hstates, h => by
    rw [pushStates] at h
    obtain ⟨edgeStart, hstart, h⟩ := bind_ok h
    obtain ⟨edges', hpush, h⟩ := bind_ok h
    obtain ⟨edgeLen, hlen, h⟩ := bind_ok h
    obtain ⟨rfl, _⟩ := checkedU32_ok hstart
    obtain ⟨rfl, _⟩ := checkedU32_ok hlen
    obtain ⟨rfl, htargets, hnodup, _⟩ := pushEdges_ok hpush
    have hrows : AutomatonGraph.rowsOf (done ++ [(accepting, row)]) =
        AutomatonGraph.rowsOf done ++ [row.map AutomatonGraph.edgeOf] := by
      simp [AutomatonGraph.rowsOf]
    have hat : start (AutomatonGraph.rowsOf all) done.length = edges.length := by
      have hdone : done.length = (AutomatonGraph.rowsOf done).length := by simp [AutomatonGraph.rowsOf]
      rw [← hall, AutomatonGraph.rowsOf, List.map_append]
      show start (AutomatonGraph.rowsOf done ++ _) done.length = _
      rw [CountingSort.start_append_left _ _ (Nat.le_of_eq hdone), hdone, CountingSort.start_length, hedges]
    have hall' : done ++ [(accepting, row)] ++ rest = all := by
      rw [List.append_assoc]
      exact hall
    obtain ⟨hout, hout', hrest⟩ := pushStates_ok (done ++ [(accepting, row)]) hall'
      (by rw [hrows, List.flatten_append, hedges]; simp) (by rw [List.mapIdx_append, hstates, hat.symm]; simp) h
    refine ⟨hout, hout', fun state hmem => ?_⟩
    rcases List.mem_cons.1 hmem with rfl | hmem
    · exact ⟨htargets, hnodup⟩
    · exact hrest state hmem

/-- Edges in range, by different bytes, are taken. -/
theorem pushEdges_total {count : Nat} : ∀ {row : List (Byte × Nat)} {seen : List Byte} {edges : List GraphEdge},
    (∀ e ∈ row, e.2 < count) → (row.map Prod.fst).Nodup → (∀ e ∈ row, e.1 ∉ seen) →
    ∃ out, pushEdges count seen row edges = .ok out
  | [], _, edges, _, _, _ => ⟨edges, rfl⟩
  | (b, target) :: row, seen, edges, htargets, hnodup, hfresh => by
    obtain ⟨hb, hnodup⟩ := List.nodup_cons.1 hnodup
    have htarget := htargets _ List.mem_cons_self
    have hseen := hfresh _ List.mem_cons_self
    rw [pushEdges, if_neg (not_or.2 ⟨Nat.not_le.2 htarget, hseen⟩)]
    refine pushEdges_total (fun e he => htargets e (List.mem_cons_of_mem _ he)) hnodup fun e he hmem => ?_
    rcases List.mem_cons.1 hmem with heq | hmem
    · exact hb (List.mem_map.2 ⟨e, he, heq⟩)
    · exact hfresh e (List.mem_cons_of_mem _ he) hmem

theorem pushStates_error {count : Nat} {err : CompileError} :
    ∀ {rest : List ByteState} {states : List GraphState} {edges : List GraphEdge},
    (∀ state ∈ rest, (∀ e ∈ state.2, e.2 < count) ∧ (state.2.map Prod.fst).Nodup) →
      pushStates count rest states edges = .error err → err = graphLimit
  | [], _, _, _, h => by cases h
  | (accepting, row) :: rest, states, edges, hrows, h => by
    rw [pushStates] at h
    rcases bind_error h with h | ⟨_, -, h⟩
    · exact checkedU32_error h
    rcases bind_error h with h | ⟨_, -, h⟩
    · obtain ⟨htargets, hnodup⟩ := hrows _ List.mem_cons_self
      obtain ⟨out, hout⟩ := @pushEdges_total count row [] edges htargets hnodup fun _ _ => List.not_mem_nil
      rw [hout] at h
      cases h
    rcases bind_error h with h | ⟨_, -, h⟩
    · exact checkedU32_error h
    · exact pushStates_error (fun state hstate => hrows state (List.mem_cons_of_mem _ hstate)) h

namespace AutomatonGraph

/-- **A deterministic list is refused for want of room only.** -/
theorem fromByteStates_error {states : List ByteState} {start : Nat} {err : CompileError}
    (h : fromByteStates states start = .error err)
    (hstart : start < states.length) (htargets : ∀ state ∈ states, ∀ e ∈ state.2, e.2 < states.length)
    (htidy : ∀ state ∈ states, (state.2.map Prod.fst).Nodup) : err = graphLimit := by
  unfold fromByteStates at h
  split at h
  · rename_i hempty
    rcases hempty with hempty | hle
    · rw [List.isEmpty_iff.1 hempty] at hstart
      exact absurd hstart (Nat.not_lt_zero _)
    · omega
  split at h
  · exact (Except.error.inj h).symm
  split at h
  · exact (Except.error.inj h).symm
  rcases bind_error h with h | ⟨_, -, h⟩
  · exact pushStates_error (fun state hstate => ⟨htargets state hstate, htidy state hstate⟩) h
  · cases h

/-- **A graph that is returned lays out the list it was made from.** -/
theorem fromByteStates_ok {states : List ByteState} {start : Nat} {g : AutomatonGraph}
    (h : fromByteStates states start = .ok g) :
    g.start = start ∧ g.Lays states := by
  unfold fromByteStates at h
  split at h
  · cases h
  · rename_i hstart
    rw [not_or, Nat.not_le] at hstart
    split at h
    · cases h
    · rename_i hfew
      split at h
      · cases h
      · obtain ⟨out, hpush, h⟩ := bind_ok h
        cases h
        obtain ⟨hedges, hstates, hall⟩ := pushStates_ok [] rfl rfl rfl hpush
        exact ⟨rfl, hedges, hstates, hstart.2, Nat.le_of_not_lt hfew, fun s hs => (hall s hs).1, fun s hs =>
          (hall s hs).2⟩

variable {g : AutomatonGraph} {states : List ByteState}

namespace Lays

theorem length (h : g.Lays states) : g.states.length = states.length := by
  rw [h.statesEq, List.length_mapIdx]

theorem getElem? (h : g.Lays states) (s : Nat) : g.states[s]? =
    states[s]?.map fun state => ⟨CountingSort.start (rowsOf states) s, state.2.length, state.1⟩ := by
  rw [h.statesEq, List.getElem?_mapIdx]

theorem getElem?_rowsOf (s : Nat) : (rowsOf states)[s]? = states[s]?.map fun state => state.2.map edgeOf := by
  rw [rowsOf, List.getElem?_map]

/-- A state's edges are its row. -/
theorem range (h : g.Lays states) {s : Nat} {state : ByteState} (hs : states[s]? = some state) :
    getRange g.edges (CountingSort.start (rowsOf states) s) (CountingSort.start (rowsOf states) s + state.2.length) =
      some (state.2.map edgeOf) := by
  have hrow : (rowsOf states)[s]? = some (state.2.map edgeOf) := by rw [getElem?_rowsOf, hs, Option.map_some]
  have hslice := slice_flatten _ _ _ hrow
  have hnext : CountingSort.start (rowsOf states) (s + 1) = CountingSort.start (rowsOf states) s + state.2.length := by
    unfold CountingSort.start
    rw [List.take_add_one, hrow, List.map_append, List.sum_append]
    simp
  have hle : CountingSort.start (rowsOf states) (s + 1) ≤ g.edges.length := by
    rw [h.edgesEq, ← CountingSort.start_length]
    have hs' : s + 1 ≤ (rowsOf states).length := (List.getElem?_eq_some_iff.1 hrow).1
    rw [CountingSort.start, CountingSort.start, List.take_length]
    exact ((List.take_sublist (s + 1) (rowsOf states)).map List.length).sum_le_sum fun _ _ => Nat.zero_le _
  rw [hnext] at hslice hle
  rw [getRange, if_pos ⟨Nat.le_add_right _ _, hle⟩, h.edgesEq, hslice]

/-- **A graph steps as the list it lays out.** -/
theorem transition (h : g.Lays states) (s : Nat) (b : Byte) :
    g.transition s b = states[s]?.bind fun state => state.2.lookup b := by
  have hfind : ∀ row : List (Byte × Nat), (row.map edgeOf).findSome?
      (fun edge => if edge.byteClass.contains b then some edge.target else none) = row.lookup b := by
    intro row
    induction row with
    | nil => rfl
    | cons e row ih =>
      rw [List.map_cons, List.findSome?_cons, List.lookup_cons, ih]
      have hclass : (edgeOf e).byteClass.contains b = decide (e.1 = b) := ByteClass.contains_singleton e.1 b
      rw [hclass]
      by_cases heq : e.1 = b
      · rw [heq, decide_eq_true rfl, beq_self_eq_true]
        rfl
      · rw [decide_eq_false heq, beq_eq_false_iff_ne.2 (Ne.symm heq)]
        rfl
  unfold AutomatonGraph.transition
  rw [h.getElem?]
  cases hs : states[s]? with
  | none => rfl
  | some state =>
    show (getRange g.edges _ _).bind _ = state.2.lookup b
    rw [h.range hs]
    exact hfind state.2

theorem isAccepting (h : g.Lays states) (s : Nat) : g.isAccepting s = (states[s]?.map Prod.fst).getD false := by
  rw [AutomatonGraph.isAccepting, h.getElem?, Option.map_map]
  rfl

theorem transition_lt (h : g.Lays states) {s t : Nat} {b : Byte} (ht : g.transition s b = some t) :
    t < states.length := by
  rw [h.transition, Option.bind_eq_some_iff] at ht
  obtain ⟨state, hs, ht⟩ := ht
  exact h.targets state (List.mem_of_getElem? hs) _ (mem_of_lookup ht)

/-- **A graph accepts what the list it lays out does.** -/
theorem acceptsFrom (h : g.Lays states) (w : List Byte) : ∀ s, g.acceptsFrom s w = Explore.accepts states s w := by
  induction w with
  | nil => exact h.isAccepting
  | cons b w ih =>
    intro s
    rw [AutomatonGraph.acceptsFrom, Explore.accepts, h.transition]
    cases states[s]?.bind fun state => state.2.lookup b with
    | none => rfl
    | some t => exact ih t

end Lays

/-- What a graph made from an explored list accepts. -/
theorem fromByteStates_accepts {states : List ByteState} {start : Nat} {g : AutomatonGraph}
    (h : fromByteStates states start = .ok g) (w : List Byte) : g.accepts w = Explore.accepts states start w := by
  obtain ⟨hstart, hlays⟩ := fromByteStates_ok h
  rw [AutomatonGraph.accepts, hlays.acceptsFrom, hstart]

end AutomatonGraph
end MaskForge
