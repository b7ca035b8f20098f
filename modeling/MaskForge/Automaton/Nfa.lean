import MaskForge.Automaton.Graph
import MaskForge.Lib.EpsilonRun
/-!
# Nfa — byte automata with empty steps, and the graph of their subsets

`determinize` explores the closed subsets of an automaton's states breadth first.  Its graph accepts the automaton's
language, read as Mathlib's `εNFA`.
-/
namespace MaskForge

structure NfaState where
  edges : List (Byte × Nat)
  epsilon : List Nat
  accepting : Bool

structure ByteNfa where
  states : List NfaState
  start : Nat

namespace ByteNfa

/-- The closure loop: the states from `cursor` on have empty steps still to follow. -/
def closeFrom (nfa : ByteNfa) : Nat → Nat → List Nat → Except CompileError (List Nat)
  | 0, _, closure => .ok closure
  | f + 1, cursor, closure => match closure[cursor]? with
    | none => .ok closure
    | some s => match nfa.states[s]? with
      | none => .error graphLimit
      | some state =>
        closeFrom nfa f (cursor + 1) (state.epsilon.foldl (fun c t => if t ∈ c then c else c ++ [t]) closure)

def epsilonClosure (nfa : ByteNfa) (seeds : List Nat) : Except CompileError (List Nat) := do
  let closure ← nfa.closeFrom (seeds.length + nfa.states.length + 1) 0 seeds
  return (closure.mergeSort (· ≤ ·)).dedup

/-- The targets of a subset's edges by one byte. -/
def rawTargets (nfa : ByteNfa) (b : Byte) : List Nat → Except CompileError (List Nat)
  | [] => .ok []
  | s :: subset => match nfa.states[s]? with
    | none => .error graphLimit
    | some state => do
      let rest ← rawTargets nfa b subset
      return (state.edges.filter (·.1 = b)).map Prod.snd ++ rest

def isAccepting (nfa : ByteNfa) (s : Nat) : Bool := (nfa.states[s]?.map NfaState.accepting).getD false

/-- The machine of closed subsets. -/
def subsets (nfa : ByteNfa) : Explore.Machine (List Nat) Byte CompileError where
  accept subset := subset.any nfa.isAccepting
  next subset b := do
    let raw ← nfa.rawTargets b subset
    if raw.isEmpty then return none
    else
      let closed ← nfa.epsilonClosure raw
      return some closed
  room count := if maxGraphStates ≤ count then .error graphLimit else .ok ()
  edge _ _ := .ok ()
  rowEnd edges := if maxGraphEdges < edges then .error graphLimit else .ok ()
  lost := graphLimit

def determinize (nfa : ByteNfa) : Except CompileError AutomatonGraph := do
  let start ← nfa.epsilonClosure [nfa.start]
  let (startId, s) ← Explore.explore nfa.subsets allBytes maxGraphStates start
  AutomatonGraph.fromByteStates s.rows startId

/-- The automaton as a mathematical one. -/
def toεNFA (nfa : ByteNfa) : εNFA Byte Nat where
  step s
    | none => {t | ∃ state, nfa.states[s]? = some state ∧ t ∈ state.epsilon}
    | some b => {t | ∃ state, nfa.states[s]? = some state ∧ (b, t) ∈ state.edges}
  start := {nfa.start}
  accept := {s | nfa.isAccepting s = true}

variable {nfa : ByteNfa}

/-! ### Closures -/

/-- New targets are appended, each once. -/
theorem foldl_addNew : ∀ (targets closure : List Nat), ∃ more,
    targets.foldl (fun c t => if t ∈ c then c else c ++ [t]) closure = closure ++ more ∧ more.Nodup ∧
    (∀ t ∈ more, t ∉ closure) ∧
      (∀ t ∈ more, t ∈ targets) ∧ ∀ t ∈ targets, t ∈ closure ++ more
  | [], closure => ⟨[], (List.append_nil _).symm, List.nodup_nil, fun _ h => absurd h List.not_mem_nil,
      fun _ h => absurd h List.not_mem_nil, fun _ h => absurd h List.not_mem_nil⟩
  | t :: targets, closure => by
    rw [List.foldl_cons]
    by_cases ht : t ∈ closure
    · rw [if_pos ht]
      obtain ⟨more, heq, hnodup, hnew, hfrom, hall⟩ := foldl_addNew targets closure
      refine ⟨more, heq, hnodup, hnew, fun u hu => List.mem_cons_of_mem _ (hfrom u hu), fun u hu => ?_⟩
      rcases List.mem_cons.1 hu with rfl | hu
      · exact List.mem_append_left _ ht
      · exact hall u hu
    · rw [if_neg ht]
      obtain ⟨more, heq, hnodup, hnew, hfrom, hall⟩ := foldl_addNew targets (closure ++ [t])
      refine ⟨t :: more, by
        rw [heq, List.append_assoc]; rfl, List.nodup_cons.2 ⟨fun h => ?_, hnodup⟩, fun u hu => ?_, fun u hu => ?_,
        fun u hu => ?_⟩
      · exact hnew t h (List.mem_append_right _ List.mem_cons_self)
      · rcases List.mem_cons.1 hu with rfl | hu
        · exact ht
        · exact fun h => hnew u hu (List.mem_append_left _ h)
      · rcases List.mem_cons.1 hu with rfl | hu
        · exact List.mem_cons_self
        · exact List.mem_cons_of_mem _ (hfrom u hu)
      · rcases List.mem_cons.1 hu with rfl | hu
        · exact List.mem_append_right _ List.mem_cons_self
        · have hmem := hall u hu
          rwa [List.append_assoc] at hmem

/-- A closure under way: what was added is new, and the states before the cursor have had their empty steps followed. -/
structure Closing (nfa : ByteNfa) (seeds : List Nat) (cursor : Nat) (closure : List Nat) : Prop where
  grown : ∃ added, closure = seeds ++ added ∧ added.Nodup
  cursor_le : cursor ≤ closure.length
  sound : ∀ s ∈ closure, s ∈ nfa.toεNFA.εClosure {s | s ∈ seeds}
  followed : ∀ i s, i < cursor → closure[i]? = some s → ∃ state, nfa.states[s]? = some state ∧ ∀ t ∈ state.epsilon,
  t ∈ closure

theorem Closing.step {seeds closure : List Nat} {cursor s : Nat} {state : NfaState}
    (h : Closing nfa seeds cursor closure) (hs : closure[cursor]? = some s) (hstate : nfa.states[s]? = some state) :
    Closing nfa seeds (cursor + 1) (state.epsilon.foldl (fun c t => if t ∈ c then c else c ++ [t]) closure) := by
  obtain ⟨added, hclosure, hadded⟩ := h.grown
  obtain ⟨more, heq, hnodup, hnew, hfrom, hall⟩ := foldl_addNew state.epsilon closure
  have hlt := (List.getElem?_eq_some_iff.1 hs).1
  rw [heq]
  refine ⟨⟨added ++ more, by rw [hclosure, List.append_assoc], ?_⟩, ?_, ?_, ?_⟩
  · refine List.nodup_append.2 ⟨hadded, hnodup, fun a ha b hb hab => hnew b hb ?_⟩
    rw [hclosure]
    exact List.mem_append_right _ (hab ▸ ha)
  · rw [List.length_append]
    omega
  · intro t ht
    rcases List.mem_append.1 ht with ht | ht
    · exact h.sound t ht
    · exact εNFA.εClosure.step s t ⟨state, hstate, hfrom t ht⟩ (h.sound s (List.mem_of_getElem? hs))
  · intro i u hi hu
    rw [List.getElem?_append_left (by omega)] at hu
    by_cases hic : i < cursor
    · obtain ⟨state', hstate', heps⟩ := h.followed i u hic hu
      exact ⟨state', hstate', fun t ht => List.mem_append_left _ (heps t ht)⟩
    · have hi : i = cursor := by omega
      rw [hi, hs] at hu
      cases hu
      exact ⟨state, hstate, hall⟩

/-- The loop does not run out: past the seeds it meets distinct states of the automaton. -/
theorem Closing.in_range {seeds closure : List Nat} {cursor : Nat} (h : Closing nfa seeds cursor closure) :
    cursor ≤ seeds.length + nfa.states.length := by
  obtain ⟨added, rfl, hadded⟩ := h.grown
  by_contra hlt
  have hle := h.cursor_le
  rw [List.length_append] at hle
  have hsub : (added.take (cursor - seeds.length)) ⊆ List.range nfa.states.length := by
    intro s hs
    obtain ⟨i, hi⟩ := List.mem_iff_getElem?.1 hs
    have hi' : i < cursor - seeds.length := by
      have := (List.getElem?_eq_some_iff.1 hi).1
      rw [List.length_take] at this
      omega
    rw [List.getElem?_take_of_lt hi'] at hi
    obtain ⟨state, hstate, _⟩ := h.followed (seeds.length + i) s (by omega)
      (by rw [List.getElem?_append_right (by omega), Nat.add_sub_cancel_left]; exact hi)
    exact List.mem_range.2 (List.getElem?_eq_some_iff.1 hstate).1
  have hcount := (hadded.sublist (List.take_sublist _ _)).subperm hsub
  have hlen := hcount.length_le
  rw [List.length_take, List.length_range] at hlen
  omega

theorem closeFrom_ok {seeds : List Nat} :
    ∀ {f cursor : Nat} {closure out : List Nat}, Closing nfa seeds cursor closure →
    seeds.length + nfa.states.length < f + cursor → nfa.closeFrom f cursor closure = .ok out →
    Closing nfa seeds out.length out
  | 0, cursor, closure, out, h, hf, hout => by
    have := h.in_range
    omega
  | f + 1, cursor, closure, out, h, hf, hout => by
    rw [closeFrom] at hout
    split at hout
    · rename_i hnone
      cases hout
      have hend : cursor = closure.length := Nat.le_antisymm h.cursor_le (List.getElem?_eq_none_iff.1 hnone)
      rwa [hend] at h
    · rename_i s hs
      split at hout
      · cases hout
      · rename_i state hstate
        exact closeFrom_ok (h.step hs hstate) (by omega) hout

/-- **The closure holds what empty steps lead to from the seeds.** -/
theorem epsilonClosure_ok {seeds closure : List Nat} (h : nfa.epsilonClosure seeds = .ok closure) :
    {s | s ∈ closure} = nfa.toεNFA.εClosure {s | s ∈ seeds} := by
  obtain ⟨out, hout, h⟩ := bind_ok h
  cases h
  have hstart : Closing nfa seeds 0 seeds :=
    ⟨⟨[], (List.append_nil _).symm, List.nodup_nil⟩, Nat.zero_le _, fun s hs => εNFA.εClosure.base s hs, fun _ _ h =>
      absurd h (Nat.not_lt_zero _)⟩
  have hclosed := closeFrom_ok hstart (by omega) hout
  obtain ⟨added, hgrown, _⟩ := hclosed.grown
  ext s
  rw [Set.mem_ofPred_eq, List.mem_dedup, List.mem_mergeSort]
  refine ⟨hclosed.sound s, fun hs => ?_⟩
  induction hs with
  | base s hs =>
    rw [hgrown]
    exact List.mem_append_left _ hs
  | step s t ht _ ih =>
    obtain ⟨i, hi⟩ := List.mem_iff_getElem?.1 ih
    obtain ⟨state, hstate, heps⟩ := hclosed.followed i s (List.getElem?_eq_some_iff.1 hi).1 hi
    obtain ⟨state', hstate', hmem⟩ := ht
    rw [hstate] at hstate'
    cases hstate'
    exact heps t hmem

/-! ### Subsets -/

theorem mem_rawTargets {b : Byte} : ∀ {subset raw : List Nat}, nfa.rawTargets b subset = .ok raw →
    ∀ t, t ∈ raw ↔ ∃ s ∈ subset, t ∈ nfa.toεNFA.step s (some b)
  | [], raw, h, t => by
    cases h
    simp
  | s :: subset, raw, h, t => by
    rw [rawTargets] at h
    split at h
    · cases h
    · rename_i state hstate
      obtain ⟨rest, hrest, h⟩ := bind_ok h
      cases h
      have hself : t ∈ (state.edges.filter (·.1 = b)).map Prod.snd ↔ t ∈ nfa.toεNFA.step s (some b) := by
        rw [List.mem_map]
        constructor
        · rintro ⟨⟨b', t'⟩, hmem, rfl⟩
          obtain ⟨hmem, hb⟩ := List.mem_filter.1 hmem
          rw [decide_eq_true_eq] at hb
          exact ⟨state, hstate, hb ▸ hmem⟩
        · rintro ⟨state', hstate', hmem⟩
          rw [hstate] at hstate'
          cases hstate'
          exact ⟨(b, t), List.mem_filter.2 ⟨hmem, decide_eq_true rfl⟩, rfl⟩
      rw [List.mem_append, hself, mem_rawTargets hrest, List.exists_mem_cons_iff]

/-- A step of the automaton from a set is the closure of the targets. -/
theorem stepSet_eq {b : Byte} {subset raw : List Nat} (h : nfa.rawTargets b subset = .ok raw) :
    nfa.toεNFA.stepSet {s | s ∈ subset} b = nfa.toεNFA.εClosure {t | t ∈ raw} := by
  ext t
  rw [εNFA.mem_stepSet_iff, nfa.toεNFA.mem_εClosure_iff_exists]
  constructor
  · rintro ⟨s, hs, ht⟩
    rw [nfa.toεNFA.mem_εClosure_iff_exists] at ht
    obtain ⟨u, hu, ht⟩ := ht
    exact ⟨u, (mem_rawTargets h u).2 ⟨s, hs, hu⟩, ht⟩
  · rintro ⟨u, hu, ht⟩
    obtain ⟨s, hs, hu⟩ := (mem_rawTargets h u).1 hu
    exact ⟨s, hs, nfa.toεNFA.mem_εClosure_iff_exists.2 ⟨u, hu, ht⟩⟩

theorem subsets_next {subset : List Nat} {b : Byte} {target : Option (List Nat)}
    (h : nfa.subsets.next subset b = .ok target) :
    (target = none → nfa.toεNFA.stepSet {s | s ∈ subset} b = ∅) ∧
      ∀ closed, target = some closed → {s | s ∈ closed} = nfa.toεNFA.stepSet {s | s ∈ subset} b := by
  change (nfa.rawTargets b subset >>= fun raw => _) = _ at h
  obtain ⟨raw, hraw, h⟩ := bind_ok h
  rw [stepSet_eq hraw]
  split at h
  · rename_i hempty
    cases h
    have hnil : {t | t ∈ raw} = (∅ : Set Nat) := by
      rw [List.isEmpty_iff.1 hempty]
      simp
    rw [hnil, nfa.toεNFA.εClosure_empty]
    exact ⟨fun _ => rfl, fun _ h => absurd h.symm (Option.some_ne_none _)⟩
  · obtain ⟨closed, hclosed, h⟩ := bind_ok h
    cases h
    refine ⟨fun h => absurd h (Option.some_ne_none _), fun c hc => ?_⟩
    cases hc
    exact epsilonClosure_ok hclosed

theorem subsets_caps : Explore.Caps nfa.subsets maxGraphStates := by
  intro n e hroom _
  change (if maxGraphStates ≤ n then _ else _) = _ at hroom
  split at hroom
  · cases hroom
  · omega

/-- **The graph of the subsets accepts the automaton's language.** -/
theorem determinize_ok {g : AutomatonGraph} (h : nfa.determinize = .ok g) (w : List Byte) :
    g.accepts w = true ↔ w ∈ nfa.toεNFA.accepts := by
  obtain ⟨start, hstart, h⟩ := bind_ok h
  obtain ⟨⟨id, s⟩, hexplore, h⟩ := bind_ok h
  obtain ⟨rfl, hinv, hall⟩ := Explore.explore_ok subsets_caps (by decide) nodup_allBytes (Nat.le_refl _) hexplore
  rw [AutomatonGraph.fromByteStates_accepts h]
  refine hinv.accepts_iff_eval (fun subset => {s | s ∈ subset}) hall mem_allBytes ?_
    (fun k b hn => (subsets_next hn).1 rfl) (fun k b k' hn => (subsets_next hn).2 k' rfl) (fun subset => ?_) w
  · rw [epsilonClosure_ok hstart]
    congr 1
    ext t
    exact List.mem_singleton
  · show subset.any nfa.isAccepting = true ↔ _
    rw [List.any_eq_true]
    exact ⟨fun ⟨s, hs, hacc⟩ => ⟨s, hacc, hs⟩, fun ⟨s, hacc, hs⟩ => ⟨s, hs, hacc⟩⟩

end ByteNfa
end MaskForge
