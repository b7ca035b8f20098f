import MaskForge.Automaton.FromRows
import MaskForge.Automaton.Graph
import MaskForge.Automaton.Residual
import MaskForge.Lib.Liveness
/-!
# Materialize — a graph becomes an engine

`graph_to_engine` keeps the states that lead to an accepting one, numbers them from one on, and merges the bytes whose
columns agree into classes.  Nothing is lost: the engine accepts what the graph does, from every state, and no state of
the engine is a dead end.
-/
namespace MaskForge

open CountingSort (slice start)

def maxMaterializeStates : Nat := 2 ^ 16

def maxTransitionCells : Nat := 2 ^ 22

/-! ### Live states -/

/-- The target and the source of every edge, row by row from the state `source` on. -/
def reversePairs (g : AutomatonGraph) : Nat → List GraphState → Except CompileError (List (Nat × Nat))
  | _, [] => .ok []
  | source, row :: rows => match getRange g.edges row.edgeStart (row.edgeStart + row.edgeLen) with
    | none => .error RefEngine.limitErr
    | some edges => do
      let rest ← reversePairs g (source + 1) rows
      return edges.map (fun edge => (edge.target, source)) ++ rest

/-- The states that lead to an accepting one, by a table of predecessors. -/
def graphLiveStates (g : AutomatonGraph) : Except CompileError (List Bool) :=
  let targets := g.edges.map fun edge => (edge.target, ())
  if targets.any fun target => decide (g.states.length ≤ target.1) then .error graphLimit
  else do
    let offset := CountingSort.offset targets
    let pairs ← reversePairs g 0 g.states
    let cursor := (List.range g.states.length).map offset
    let predecessors := (pairs.foldl CountingSort.place ⟨List.replicate g.edges.length 0, cursor⟩).out
    return Liveness.sweep (fun t => slice predecessors (offset t) (offset (t + 1))) (g.states.map GraphState.accepting)

/-- Live states are numbered in order from `next` on; the others are mapped to DEAD. -/
def remapLive : Nat → List Bool → List Nat
  | _, [] => []
  | next, true :: live => next :: remapLive (next + 1) live
  | next, false :: live => dead :: remapLive next live

/-- Every mapped source writes its value at its number. -/
def writeMapped {α : Type} (remap : List Nat) (value : Nat → α) (out : List α) : List α :=
  remap.zipIdx.foldl (fun out mapped => if mapped.1 = dead then out else out.set mapped.1 (value mapped.2)) out

/-! ### Byte classes -/

/-- The classes found so far: a class is the position of its column. -/
structure ClassScan where
  signatures : List (List Nat)
  members : List (List Byte)
  representatives : List Byte
  ofByte : List Nat

def signature (matrix : List (Byte → Nat)) (b : Byte) : List Nat := matrix.map (· b)

def classStep (matrix : List (Byte → Nat)) (s : ClassScan) (b : Byte) : ClassScan :=
  match s.signatures.idxOf? (signature matrix b) with
  | some c => { s with members := s.members.modify c (· ++ [b]), ofByte := s.ofByte ++ [c] }
  | none => ⟨s.signatures ++ [signature matrix b], s.members ++ [[b]], s.representatives ++ [b],
      s.ofByte ++ [s.members.length]⟩

def graphClassTable (matrix : List (Byte → Nat)) : ClassTable × List Byte :=
  let s := allBytes.foldl (classStep matrix) ⟨[], [], [], []⟩
  (⟨s.members, fun b => s.ofByte[b.toNat]?.getD 0⟩, s.representatives)

/-! ### Rows -/

/-- The classes a state goes on with, by their representatives. -/
def graphRow (representatives : List Byte) (row : Byte → Nat) : List (Nat × Nat) :=
  representatives.zipIdx.filterMap fun byte => if row byte.1 = dead then none else some (byte.2, row byte.1)

def pushRows (representatives : List Byte) : List (Byte → Nat) → List Nat → List (Nat × Nat) → List (BitVec 256) →
    Except CompileError (List Nat × List (Nat × Nat) × List (BitVec 256))
  | [], rowOffsets, edges, live => do
    let last ← checkedU32 RefEngine.limitErr edges.length
    return (rowOffsets ++ [last], edges, live)
  | row :: rows, rowOffsets, edges, live => do
    let first ← checkedU32 RefEngine.limitErr edges.length
    let kept := graphRow representatives row
    pushRows representatives rows (rowOffsets ++ [first]) (edges ++ kept) (live ++ [liveOf kept])

def materializeGraphRows (g : AutomatonGraph) (remap : List Nat) (matrix : List (Byte → Nat)) (classTable : ClassTable)
    (representatives : List Byte) : Except CompileError EngineData := do
  let accepting := writeMapped remap g.isAccepting (List.replicate matrix.length false)
  let (rowOffsets, edges, live) ← pushRows representatives matrix [] [] []
  let residual ← residualCardinalities rowOffsets edges accepting classTable.members
  return { rowOffsets, edges, accepting, residualCardinality := residual, liveClasses := live, classTable
           classCount := classTable.members.length, stateCount := matrix.length, start := remap[g.start]?.getD dead }

/-- A source's row of targets under their numbers. -/
def mappedRow (g : AutomatonGraph) (remap : List Nat) (source : Nat) (b : Byte) : Nat :=
  ((g.transition source b).bind (remap[·]?)).getD dead

def graphToEngine (g : AutomatonGraph) : Except CompileError EngineData :=
  if maxMaterializeStates < g.states.length ∨ 2 ^ 24 < g.states.length * 256 then .error graphLimit
  else do
    let live ← graphLiveStates g
    let remap := remapLive 1 live
    let finalStateCount := 1 + live.count true
    let matrix := writeMapped remap (mappedRow g remap) (List.replicate finalStateCount fun _ => dead)
    let (classTable, representatives) := graphClassTable matrix
    if maxTransitionCells < finalStateCount * classTable.members.length then .error graphLimit
    else materializeGraphRows g remap matrix classTable representatives

/-! ### Numbering -/

theorem length_remapLive : ∀ (next : Nat) (live : List Bool), (remapLive next live).length = live.length
  | _, [] => rfl
  | next, true :: live => by rw [remapLive, List.length_cons, length_remapLive, List.length_cons]
  | next, false :: live => by rw [remapLive, List.length_cons, length_remapLive, List.length_cons]

/-- **A live state gets a number of its own, in range; any other state is mapped to DEAD.** -/
theorem remapLive_spec : ∀ {next : Nat} {live : List Bool} {i m : Nat}, 1 ≤ next → (remapLive next live)[i]? = some m →
    (live[i]? = some false ∧ m = dead) ∨ (live[i]? = some true ∧ next ≤ m ∧ m < next + live.count true)
  | _, [], _, _, _, h => by cases h
  | next, true :: live, 0, m, _, h => by
    cases h
    refine .inr ⟨rfl, Nat.le_refl _, ?_⟩
    rw [List.count_cons_self]
    omega
  | next, true :: live, i + 1, m, hnext, h => by
    rcases remapLive_spec (by omega) (show (remapLive (next + 1) live)[i]? = some m from h) with h | ⟨h, hlo, hhi⟩
    · exact .inl h
    · refine .inr ⟨h, by omega, ?_⟩
      rw [List.count_cons_self]
      omega
  | next, false :: live, 0, m, _, h => by
    cases h
    exact .inl ⟨rfl, rfl⟩
  | next, false :: live, i + 1, m, hnext, h => by
    rcases remapLive_spec hnext (show (remapLive next live)[i]? = some m from h) with h | ⟨h, hlo, hhi⟩
    · exact .inl h
    · refine .inr ⟨h, hlo, ?_⟩
      rw [List.count_cons_of_ne (by decide)]
      exact hhi

theorem remapLive_inj : ∀ {next : Nat} {live : List Bool} {i j m : Nat}, 1 ≤ next → (remapLive next live)[i]? = some m →
    (remapLive next live)[j]? = some m → m ≠ dead → i = j
  | _, [], _, _, _, _, h, _, _ => by cases h
  | next, true :: live, 0, 0, _, _, _, _, _ => rfl
  | next, true :: live, 0, j + 1, m, hnext, hi, hj, hm => by
    cases hi
    rcases remapLive_spec (by omega) (show (remapLive (next + 1) live)[j]? = some next from hj) with h | h
    · exact absurd h.2 hm
    · omega
  | next, true :: live, i + 1, 0, m, hnext, hi, hj, hm => by
    cases hj
    rcases remapLive_spec (by omega) (show (remapLive (next + 1) live)[i]? = some next from hi) with h | h
    · exact absurd h.2 hm
    · omega
  | next, true :: live, i + 1, j + 1, m, hnext, hi, hj, hm =>
    congrArg (· + 1) (remapLive_inj (by omega) hi hj hm)
  | next, false :: live, 0, j, m, _, hi, _, hm => by
    cases hi
    exact absurd rfl hm
  | next, false :: live, i + 1, 0, m, _, _, hj, hm => by
    cases hj
    exact absurd rfl hm
  | next, false :: live, i + 1, j + 1, m, hnext, hi, hj, hm =>
    congrArg (· + 1) (remapLive_inj hnext hi hj hm)

theorem remapLive_onto : ∀ {next : Nat} {live : List Bool} {m : Nat}, next ≤ m → m < next + live.count true →
    ∃ i : Nat, (remapLive next live)[i]? = some m
  | next, [], m, hlo, hhi => by
    rw [List.count_nil] at hhi
    omega
  | next, true :: live, m, hlo, hhi => by
    rw [List.count_cons_self] at hhi
    by_cases hm : m = next
    · exact ⟨0, by rw [hm]; rfl⟩
    · have hlo' : next + 1 ≤ m := by omega
      have hhi' : m < next + 1 + live.count true := by omega
      obtain ⟨i, hi⟩ := remapLive_onto hlo' hhi'
      exact ⟨i + 1, hi⟩
  | next, false :: live, m, hlo, hhi => by
    rw [List.count_cons_of_ne (by decide)] at hhi
    obtain ⟨i, hi⟩ := remapLive_onto hlo hhi
    exact ⟨i + 1, hi⟩

/-! ### Writing at numbers -/

section
variable {α : Type} {value : Nat → α}

theorem length_foldl_write : ∀ (l : List (Nat × Nat)) (out : List α),
    (l.foldl (fun out mapped => if mapped.1 = dead then out else out.set mapped.1 (value mapped.2)) out).length =
    out.length
  | [], _ => rfl
  | a :: l, out => by
    rw [List.foldl_cons, length_foldl_write l]
    split
    · rfl
    · rw [List.length_set]

theorem foldl_write_other {m : Nat} : ∀ {l : List (Nat × Nat)} {out : List α}, (∀ a ∈ l, a.1 = m → m = dead) →
    (l.foldl (fun out mapped => if mapped.1 = dead then out else out.set mapped.1 (value mapped.2)) out)[m]? = out[m]?
  | [], _, _ => rfl
  | a :: l, out, h => by
    rw [List.foldl_cons, foldl_write_other fun b hb => h b (List.mem_cons_of_mem _ hb)]
    split
    · rfl
    · rename_i ha
      by_cases hm : a.1 = m
      · exact absurd (hm.trans (h a List.mem_cons_self hm)) ha
      · rw [List.getElem?_set_ne hm]

theorem foldl_write_mem {m i : Nat} : ∀ {l : List (Nat × Nat)} {out : List α},
    l.Pairwise (fun a b => a.1 = b.1 → a.1 = dead) → (m, i) ∈ l → m ≠ dead → m < out.length →
    (l.foldl (fun out mapped => if mapped.1 = dead then out else out.set mapped.1 (value mapped.2)) out)[m]? =
    some (value i)
  | [], _, _, h, _, _ => absurd h List.not_mem_nil
  | a :: l, out, hpair, h, hm, hlt => by
    rw [List.foldl_cons]
    rcases List.mem_cons.1 h with rfl | h
    · have hother : ∀ b ∈ l, b.1 = m → m = dead := fun b hb heq => List.rel_of_pairwise_cons hpair hb heq.symm
      rw [foldl_write_other hother, if_neg hm, List.getElem?_set_self hlt]
    · refine foldl_write_mem hpair.of_cons h hm ?_
      split
      · exact hlt
      · rw [List.length_set]
        exact hlt

end

/-- The numbers of a mapping are the sources' own. -/
def InjectiveMap (remap : List Nat) : Prop :=
  ∀ i j m : Nat, remap[i]? = some m → remap[j]? = some m → m ≠ dead → i = j

section
variable {α : Type} {remap : List Nat} {value : Nat → α} {out : List α}

theorem length_writeMapped : (writeMapped remap value out).length = out.length := length_foldl_write _ _

/-- A mapped source's number holds its value. -/
theorem writeMapped_self (hinj : InjectiveMap remap) {i m : Nat} (h : remap[i]? = some m) (hm : m ≠ dead)
    (hlt : m < out.length) :
    (writeMapped remap value out)[m]? = some (value i) := by
  refine foldl_write_mem ?_ (List.mk_mem_zipIdx_iff_getElem?.2 h) hm hlt
  rw [List.pairwise_iff_getElem]
  intro a b ha hb hab heq
  by_contra hne
  rw [List.getElem_zipIdx, List.getElem_zipIdx] at heq
  rw [List.getElem_zipIdx] at hne
  rw [List.length_zipIdx] at ha hb
  have hsame := hinj a b _ (List.getElem?_eq_getElem ha)
    (by rw [List.getElem?_eq_getElem hb]; exact congrArg some heq.symm) hne
  omega

/-- DEAD keeps what was there. -/
theorem writeMapped_dead : (writeMapped remap value out)[dead]? = out[dead]? := foldl_write_other fun _ _ _ => rfl

end

/-! ### Classes by columns -/

/-- What the scan knows after some bytes. -/
structure ClassesScanned (matrix : List (Byte → Nat)) (done : List Byte) (s : ClassScan) : Prop where
  signatures : s.signatures = s.representatives.map (signature matrix)
  nodup : s.signatures.Nodup
  length : s.members.length = s.representatives.length
  few : s.representatives.length ≤ done.length
  ofByteLen : s.ofByte.length = done.length
  ofByte : ∀ (k : Nat) (b : Byte), done[k]? = some b → ∃ c, s.ofByte[k]? = some c ∧
    s.signatures[c]? = some (signature matrix b)
  members : ∀ (c : Nat) (bs : List Byte), s.members[c]? = some bs →
    ∀ b, b ∈ bs ↔ b ∈ done ∧ s.signatures[c]? = some (signature matrix b)

variable {matrix : List (Byte → Nat)} {done : List Byte} {s : ClassScan}

/-- A byte whose column is known joins its class. -/
theorem ClassesScanned.join (h : ClassesScanned matrix done s) {b : Byte} {c : Nat}
    (hc : s.signatures[c]? = some (signature matrix b)) :
    ClassesScanned matrix (done ++ [b]) { s with
      members := s.members.modify c (· ++ [b]), ofByte := s.ofByte ++ [c] } := by
  refine ⟨h.signatures, h.nodup, ?_, ?_, ?_, ?_, ?_⟩
  · rw [List.length_modify, h.length]
  · rw [List.length_append]
    exact Nat.le_trans h.few (Nat.le_add_right _ _)
  · rw [List.length_append, List.length_append, h.ofByteLen]
    rfl
  · intro k x hx
    rcases Nat.lt_or_ge k done.length with hk | hk
    · rw [List.getElem?_append_left hk] at hx
      rw [List.getElem?_append_left (h.ofByteLen.symm ▸ hk)]
      exact h.ofByte k x hx
    · rw [List.getElem?_append_right hk, List.getElem?_singleton] at hx
      rw [List.getElem?_append_right (h.ofByteLen.symm ▸ hk), h.ofByteLen, List.getElem?_singleton]
      split at hx
      · rename_i hk0
        cases hx
        exact ⟨c, if_pos hk0, hc⟩
      · cases hx
  · intro c' bs hbs x
    rw [List.getElem?_modify] at hbs
    obtain ⟨old, hold, hbs⟩ := Option.map_eq_some_iff.1 hbs
    rw [← hbs]
    by_cases hcc : c = c'
    · subst hcc
      rw [if_pos rfl, List.mem_append, List.mem_append, h.members c old hold, or_and_right]
      refine or_congr_right ⟨fun hx => ⟨hx, ?_⟩, And.left⟩
      rw [List.mem_singleton.1 hx]
      exact hc
    · rw [if_neg hcc, h.members c' old hold, List.mem_append, or_and_right]
      refine ⟨.inl, fun hx => hx.resolve_right ?_⟩
      rintro ⟨hx, hsig⟩
      rw [List.mem_singleton.1 hx] at hsig
      exact hcc ((List.getElem?_inj (List.getElem?_eq_some_iff.1 hc).1 h.nodup).1 (hc.trans hsig.symm))

/-- A byte with a new column opens a class. -/
theorem ClassesScanned.open (h : ClassesScanned matrix done s) {b : Byte} (hnew : signature matrix b ∉ s.signatures) :
    ClassesScanned matrix (done ++ [b]) ⟨s.signatures ++ [signature matrix b], s.members ++ [[b]],
      s.representatives ++ [b], s.ofByte ++ [s.members.length]⟩ := by
  have hlen : s.signatures.length = s.members.length := by rw [h.signatures, List.length_map, h.length]
  refine ⟨?_, ?_, ?_, ?_, ?_, ?_, ?_⟩
  · rw [List.map_append, h.signatures]
    rfl
  · exact List.concat_eq_append ▸ List.Nodup.concat hnew h.nodup
  · rw [List.length_append, List.length_append, h.length]
    rfl
  · rw [List.length_append, List.length_append]
    exact Nat.add_le_add_right h.few 1
  · rw [List.length_append, List.length_append, h.ofByteLen]
    rfl
  · intro k x hx
    rcases Nat.lt_or_ge k done.length with hk | hk
    · rw [List.getElem?_append_left hk] at hx
      rw [List.getElem?_append_left (h.ofByteLen.symm ▸ hk)]
      obtain ⟨c, hc, hsig⟩ := h.ofByte k x hx
      exact ⟨c, hc, by rw [List.getElem?_append_left (List.getElem?_eq_some_iff.1 hsig).1]; exact hsig⟩
    · rw [List.getElem?_append_right hk, List.getElem?_singleton] at hx
      rw [List.getElem?_append_right (h.ofByteLen.symm ▸ hk), h.ofByteLen, List.getElem?_singleton]
      split at hx
      · rename_i hk0
        cases hx
        exact ⟨_, if_pos hk0, by rw [← hlen, List.getElem?_concat_length]⟩
      · cases hx
  · intro c bs hbs x
    rcases Nat.lt_or_ge c s.members.length with hc | hc
    · rw [List.getElem?_append_left hc] at hbs
      rw [h.members c bs hbs, List.getElem?_append_left (hlen.symm ▸ hc), List.mem_append, or_and_right]
      refine ⟨.inl, fun hx => hx.resolve_right ?_⟩
      rintro ⟨hx, hsig⟩
      rw [List.mem_singleton.1 hx] at hsig
      exact hnew (List.mem_of_getElem? hsig)
    · rw [List.getElem?_append_right hc, List.getElem?_singleton] at hbs
      split at hbs
      · rename_i hc0
        cases hbs
        have hcl : c = s.signatures.length := by omega
        rw [hcl, List.getElem?_concat_length, Option.some.injEq, List.mem_append]
        constructor
        · intro hx
          rw [List.mem_singleton.1 hx]
          exact ⟨.inr List.mem_cons_self, rfl⟩
        · rintro ⟨hx | hx, hsig⟩
          · -- a byte seen before with this column would have opened the class
            obtain ⟨k, hk⟩ := List.mem_iff_getElem?.1 hx
            obtain ⟨c', _, hc'⟩ := h.ofByte k x hk
            rw [← hsig] at hc'
            exact absurd (List.mem_of_getElem? hc') hnew
          · exact hx
      · cases hbs

theorem ClassesScanned.step (h : ClassesScanned matrix done s) (b : Byte) :
    ClassesScanned matrix (done ++ [b]) (classStep matrix s b) := by
  unfold classStep
  cases hidx : s.signatures.idxOf? (signature matrix b) with
  | some c =>
    obtain ⟨hc, heq, _⟩ := List.idxOf?_eq_some_iff.1 hidx
    exact h.join (by rw [List.getElem?_eq_getElem hc, heq])
  | none => exact h.open (List.idxOf?_eq_none_iff.1 hidx)

theorem ClassesScanned.run : ∀ (rest : List Byte) {done : List Byte} {s : ClassScan}, ClassesScanned matrix done s →
    ClassesScanned matrix (done ++ rest) (rest.foldl (classStep matrix) s)
  | [], done, s, h => by rwa [List.append_nil]
  | b :: rest, done, s, h => by
    have hrun := (h.step b).run rest
    rwa [List.append_assoc] at hrun

theorem scanned_all (matrix : List (Byte → Nat)) :
    ClassesScanned matrix allBytes (allBytes.foldl (classStep matrix) ⟨[], [], [], []⟩) :=
  @ClassesScanned.run matrix allBytes [] ⟨[], [], [], []⟩
    ⟨rfl, List.nodup_nil, rfl, Nat.le_refl _, rfl, fun _ _ h => by simp at h, fun _ _ h => by simp at h⟩

/-- **Bytes of one class have one column**, that of its representative. -/
theorem graphClassTable_spec (matrix : List (Byte → Nat)) :
    (graphClassTable matrix).1.members.length = (graphClassTable matrix).2.length ∧
      (graphClassTable matrix).2.length ≤ 256 ∧
      (∀ b, ∃ r, (graphClassTable matrix).2[(graphClassTable matrix).1.ofByte b]? = some r ∧
        signature matrix r = signature matrix b) ∧
      ∀ c bs, (graphClassTable matrix).1.members[c]? = some bs → ∀ b, b ∈ bs ↔
      (graphClassTable matrix).1.ofByte b = c := by
  have h := scanned_all matrix
  unfold graphClassTable
  generalize allBytes.foldl (classStep matrix) ⟨[], [], [], []⟩ = s at h
  have hof : ∀ b, s.signatures[(s.ofByte[b.toNat]?).getD 0]? = some (signature matrix b) := by
    intro b
    obtain ⟨c, hc, hsig⟩ := h.ofByte b.toNat b (getElem?_allBytes b)
    rw [hc, Option.getD_some, hsig]
  refine ⟨h.length, ?_, fun b => ?_, fun c bs hbs b => ?_⟩
  · have hfew := h.few
    rwa [length_allBytes] at hfew
  · have hb := hof b
    rw [h.signatures, List.getElem?_map, Option.map_eq_some_iff] at hb
    exact hb
  · rw [h.members c bs hbs, and_iff_right (mem_allBytes b)]
    constructor
    · intro hsig
      exact (List.getElem?_inj (List.getElem?_eq_some_iff.1 (hof b)).1 h.nodup).1 ((hof b).trans hsig.symm)
    · rintro rfl
      exact hof b

/-- No class is empty. -/
theorem graphClassTable_inhabited (matrix : List (Byte → Nat)) {c : Nat} (hc : c < (graphClassTable matrix).2.length) :
    ∃ b, (graphClassTable matrix).1.ofByte b = c := by
  have h := scanned_all matrix
  unfold graphClassTable at hc ⊢
  generalize allBytes.foldl (classStep matrix) ⟨[], [], [], []⟩ = s at h hc
  dsimp only at hc ⊢
  refine ⟨s.representatives[c], ?_⟩
  obtain ⟨c', hc', hsig⟩ := h.ofByte s.representatives[c].toNat _ (getElem?_allBytes _)
  have hrep : s.signatures[c]? = some (signature matrix s.representatives[c]) := by
    rw [h.signatures, List.getElem?_map, List.getElem?_eq_getElem hc]
    rfl
  rw [hc', Option.getD_some]
  exact (List.getElem?_inj (List.getElem?_eq_some_iff.1 hsig).1 h.nodup).1 (hsig.trans hrep.symm)

theorem classStep_sublist {s : ClassScan} {done : List Byte} (h : ∀ bs ∈ s.members, bs.Sublist done) (b : Byte) :
    ∀ bs ∈ (classStep matrix s b).members, bs.Sublist (done ++ [b]) := by
  intro bs hbs
  unfold classStep at hbs
  split at hbs
  · rename_i c _
    obtain ⟨i, hi⟩ := List.mem_iff_getElem?.1 hbs
    rw [List.getElem?_modify] at hi
    obtain ⟨old, hold, rfl⟩ := Option.map_eq_some_iff.1 hi
    have hsub := h old (List.mem_of_getElem? hold)
    by_cases hci : c = i
    · rw [if_pos hci]
      exact hsub.append (List.Sublist.refl [b])
    · rw [if_neg hci]
      exact hsub.trans (List.sublist_append_left done [b])
  · rcases List.mem_append.1 hbs with hbs | hbs
    · exact (h bs hbs).trans (List.sublist_append_left done [b])
    · rw [List.mem_singleton.1 hbs]
      exact List.sublist_append_right done [b]

/-- A class lists a byte once. -/
theorem graphClassTable_nodup (matrix : List (Byte → Nat)) : ∀ bs ∈ (graphClassTable matrix).1.members, bs.Nodup := by
  have hrun : ∀ (rest : List Byte) {done : List Byte} {s : ClassScan}, (∀ bs ∈ s.members, bs.Sublist done) →
      ∀ bs ∈ (rest.foldl (classStep matrix) s).members, bs.Sublist (done ++ rest) := by
    intro rest
    induction rest with
    | nil =>
      intro done s h
      rwa [List.append_nil]
    | cons b rest ih =>
      intro done s h
      have hrest := ih (s := classStep matrix s b) (classStep_sublist h b)
      rwa [List.append_assoc] at hrest
  intro bs hbs
  have hstart : ∀ bs ∈ (⟨[], [], [], []⟩ : ClassScan).members, bs.Sublist [] := fun _ h => absurd h List.not_mem_nil
  exact (hrun allBytes hstart bs hbs).nodup nodup_allBytes

/-! ### The arrays -/

theorem pushRows_ok {reps : List Byte} :
    ∀ {rest : List (Byte → Nat)} (done : List (List (Nat × Nat))) {rowOffsets : List Nat}
    {edges : List (Nat × Nat)} {live : List (BitVec 256)} {out : List Nat × List (Nat × Nat) × List (BitVec 256)},
    rowOffsets = (List.range done.length).map (start done) → edges = done.flatten → live = done.map liveOf →
    pushRows reps rest rowOffsets edges live = .ok out →
      out.1 = (List.range ((done ++ rest.map (graphRow reps)).length + 1)).map
      (start (done ++ rest.map (graphRow reps))) ∧
      out.2.1 = (done ++ rest.map (graphRow reps)).flatten ∧ out.2.2 = (done ++ rest.map (graphRow reps)).map liveOf
  | [], done, rowOffsets, edges, live, out, hoff, hedges, hlive, h => by
    rw [pushRows] at h
    obtain ⟨last, hlast, h⟩ := bind_ok h
    obtain ⟨rfl, _⟩ := checkedU32_ok hlast
    cases h
    rw [List.map_nil, List.append_nil, List.range_succ, List.map_append, List.map_singleton, CountingSort.start_length]
    exact ⟨by rw [hoff, hedges], hedges, hlive⟩
  | row :: rest, done, rowOffsets, edges, live, out, hoff, hedges, hlive, h => by
    rw [pushRows] at h
    obtain ⟨first, hfirst, h⟩ := bind_ok h
    obtain ⟨rfl, _⟩ := checkedU32_ok hfirst
    have hsnoc : rowOffsets ++ [edges.length] =
      (List.range (done ++ [graphRow reps row]).length).map (start (done ++ [graphRow reps row])) := by
      rw [hoff, hedges, CountingSort.map_start_snoc]
    have hrest := pushRows_ok (done ++ [graphRow reps row]) hsnoc (by rw [hedges]; simp) (by rw [hlive]; simp) h
    rwa [List.append_assoc] at hrest

theorem mem_graphRow {reps : List Byte} {row : Byte → Nat} {c t : Nat} :
    (c, t) ∈ graphRow reps row ↔ ∃ b, reps[c]? = some b ∧ row b = t ∧ t ≠ dead := by
  rw [graphRow, List.mem_filterMap]
  constructor
  · rintro ⟨⟨b, k⟩, hmem, h⟩
    rw [List.mk_mem_zipIdx_iff_getElem?] at hmem
    dsimp only at h
    split at h
    · cases h
    · rename_i hne
      cases h
      exact ⟨b, hmem, rfl, hne⟩
  · rintro ⟨b, hb, rfl, hne⟩
    exact ⟨(b, c), List.mk_mem_zipIdx_iff_getElem?.2 hb, if_neg hne⟩

theorem graphRow_sorted (reps : List Byte) (row : Byte → Nat) : (graphRow reps row).Pairwise fun a b => a.1 < b.1 := by
  have hidx : reps.zipIdx.Pairwise fun a b => a.2 < b.2 := by
    rw [List.pairwise_iff_getElem]
    intro i j hi hj hij
    rw [List.getElem_zipIdx, List.getElem_zipIdx]
    omega
  refine hidx.filterMap _ ?_
  intro a b hab x hx y hy
  split at hx
  · cases hx
  · split at hy
    · cases hy
    · cases hx
      cases hy
      exact hab

/-! ### The engine -/

section
variable (g : AutomatonGraph) (live : List Bool)

/-- The rows of the numbered states. -/
def liveMatrix : List (Byte → Nat) :=
  writeMapped (remapLive 1 live) (mappedRow g (remapLive 1 live)) (List.replicate (1 + live.count true) fun _ => dead)

def liveAccepting : List Bool :=
  writeMapped (remapLive 1 live) g.isAccepting (List.replicate (liveMatrix g live).length false)

variable {g} {live}

theorem remap_injective : InjectiveMap (remapLive 1 live) :=
  fun _ _ _ hi hj hm => remapLive_inj (Nat.le_refl 1) hi hj hm

theorem length_liveMatrix : (liveMatrix g live).length = 1 + live.count true := by
  rw [liveMatrix, length_writeMapped, List.length_replicate]

theorem remap_lt {i m : Nat} (h : (remapLive 1 live)[i]? = some m) : m < 1 + live.count true := by
  rcases remapLive_spec (Nat.le_refl 1) h with ⟨_, rfl⟩ | ⟨_, _, hm⟩
  · exact Nat.lt_add_right _ Nat.one_pos
  · exact hm

theorem liveMatrix_dead : (liveMatrix g live)[dead]? = some fun _ => dead := by
  have hpos : dead < 1 + live.count true := Nat.lt_add_right _ Nat.one_pos
  rw [liveMatrix, writeMapped_dead, List.getElem?_replicate, if_pos hpos]

theorem liveMatrix_self {i m : Nat} (h : (remapLive 1 live)[i]? = some m) (hm : m ≠ dead) :
    (liveMatrix g live)[m]? = some (mappedRow g (remapLive 1 live) i) :=
  writeMapped_self remap_injective h hm (by rw [List.length_replicate]; exact remap_lt h)

theorem liveAccepting_self {i m : Nat} (h : (remapLive 1 live)[i]? = some m) (hm : m ≠ dead) :
    (liveAccepting g live)[m]? = some (g.isAccepting i) :=
  writeMapped_self remap_injective h hm (by rw [List.length_replicate, length_liveMatrix]; exact remap_lt h)

theorem liveAccepting_dead : (liveAccepting g live)[dead]? = some false := by
  rw [liveAccepting, writeMapped_dead, List.getElem?_replicate, if_pos]
  rw [length_liveMatrix]
  exact Nat.lt_add_right _ Nat.one_pos

/-- Every number but DEAD is some live state's. -/
theorem remap_onto {m : Nat} (hm : m ≠ dead) (hlt : m < 1 + live.count true) :
    ∃ i : Nat, (remapLive 1 live)[i]? = some m :=
  remapLive_onto (Nat.pos_of_ne_zero hm) hlt

theorem mappedRow_lt (i : Nat) (b : Byte) : mappedRow g (remapLive 1 live) i b < (liveMatrix g live).length := by
  rw [length_liveMatrix, mappedRow]
  cases h : (g.transition i b).bind ((remapLive 1 live)[·]?) with
  | none => exact Nat.lt_add_right _ Nat.one_pos
  | some m =>
    obtain ⟨t, _, ht⟩ := Option.bind_eq_some_iff.1 h
    exact remap_lt ht

theorem liveMatrix_lt {row : Byte → Nat} (h : row ∈ liveMatrix g live) (b : Byte) :
    row b < (liveMatrix g live).length := by
  obtain ⟨m, hm⟩ := List.mem_iff_getElem?.1 h
  by_cases hdead : m = dead
  · rw [hdead, liveMatrix_dead] at hm
    cases hm
    rw [length_liveMatrix]
    exact Nat.lt_add_right _ Nat.one_pos
  · obtain ⟨i, hi⟩ := remap_onto hdead (by rw [← length_liveMatrix (g := g)]; exact (List.getElem?_eq_some_iff.1 hm).1)
    rw [liveMatrix_self hi hdead] at hm
    cases hm
    exact mappedRow_lt i b

/-- The table the arrays lay out. -/
def engineRows (g : AutomatonGraph) (live : List Bool) : EngineRows where
  ofByte := (graphClassTable (liveMatrix g live)).1.ofByte
  classCount := (graphClassTable (liveMatrix g live)).1.members.length
  rows := (liveMatrix g live).map (graphRow (graphClassTable (liveMatrix g live)).2)
  accepting := liveAccepting g live
  start := (remapLive 1 live)[g.start]?.getD dead

theorem classCount_engineRows :
    (engineRows g live).classCount = (graphClassTable (liveMatrix g live)).2.length := (graphClassTable_spec _).1

theorem engineRows_wf (g : AutomatonGraph) (live : List Bool) : (engineRows g live).Wf := by
  obtain ⟨_, hfew, hof, _⟩ := graphClassTable_spec (liveMatrix g live)
  have hrows : (engineRows g live).rows.length = (liveMatrix g live).length := List.length_map ..
  refine ⟨?_, ?_, ?_, ?_, liveAccepting_dead, ?_, ?_, ?_⟩
  · intro row hrow
    obtain ⟨r, _, rfl⟩ := List.mem_map.1 hrow
    exact graphRow_sorted _ r
  · intro row hrow a ha
    obtain ⟨r, hr, rfl⟩ := List.mem_map.1 hrow
    obtain ⟨b, hb, hrb, hne⟩ := mem_graphRow.1 ha
    refine ⟨?_, hne, ?_⟩
    · rw [classCount_engineRows]
      exact (List.getElem?_eq_some_iff.1 hb).1
    · rw [hrows, ← hrb]
      exact liveMatrix_lt hr b
  · rw [engineRows, List.getElem?_map, liveMatrix_dead, Option.map_some]
    congr 1
    rw [List.eq_nil_iff_forall_not_mem]
    rintro ⟨c, t⟩ h
    obtain ⟨_, _, rfl, hne⟩ := mem_graphRow.1 h
    exact hne rfl
  · rw [hrows]
    show (liveAccepting g live).length = _
    rw [liveAccepting, length_writeMapped, List.length_replicate]
  · intro b
    obtain ⟨r, hr, _⟩ := hof b
    rw [classCount_engineRows]
    exact (List.getElem?_eq_some_iff.1 hr).1
  · rw [classCount_engineRows]
    exact hfew
  · rw [hrows, length_liveMatrix]
    show (remapLive 1 live)[g.start]?.getD dead < _
    cases h : (remapLive 1 live)[g.start]? with
    | none => exact Nat.lt_add_right _ Nat.one_pos
    | some m => exact remap_lt h

end

/-- **What a conversion that returns has computed**: the arrays of the live states' table. -/
theorem graphToEngine_ok {g : AutomatonGraph} {d : EngineData} (h : graphToEngine g = .ok d) : ∃ live residual,
    graphLiveStates g = .ok live ∧ residualCardinalities d.rowOffsets d.edges d.accepting d.classTable.members =
    .ok residual ∧
      d = { (engineRows g live).toData with
        classTable := (graphClassTable (liveMatrix g live)).1, residualCardinality := residual } := by
  unfold graphToEngine at h
  split at h
  · cases h
  · obtain ⟨live, hlive, h⟩ := bind_ok h
    dsimp only at h
    split at h
    · cases h
    · obtain ⟨⟨rowOffsets, edges, masks⟩, hpush, h⟩ := bind_ok h
      obtain ⟨residual, hresidual, h⟩ := bind_ok h
      cases h
      obtain ⟨hoffsets, hedges, hmasks⟩ := pushRows_ok [] rfl rfl rfl hpush
      refine ⟨live, residual, hlive, hresidual, ?_⟩
      dsimp only at hoffsets hedges hmasks
      rw [hoffsets, hedges, hmasks]
      simp only [EngineRows.toData, engineRows, List.nil_append, List.length_map]
      rfl

theorem graphToEngine_wf {g : AutomatonGraph} {d : EngineData} (h : graphToEngine g = .ok d) : d.Wf := by
  obtain ⟨live, residual, _, _, rfl⟩ := graphToEngine_ok h
  have hwf := (engineRows_wf g live).toData
  obtain ⟨_, _, _, hmembers⟩ := graphClassTable_spec (liveMatrix g live)
  exact ⟨hwf.rows, hwf.sorted, hwf.targets, hwf.deadRow, hwf.acceptingLen, hwf.deadRejects, hwf.liveLen, hwf.live, rfl,
    hwf.classOf, hmembers, hwf.classCap, hwf.startLt⟩

/-- `from_graph`: what the conversion returns is an engine. -/
def RefEngine.fromGraph (g : AutomatonGraph) : Except CompileError RefEngine :=
  match h : graphToEngine g with
  | .ok d => .ok ⟨d, graphToEngine_wf h⟩
  | .error e => .error e

end MaskForge
