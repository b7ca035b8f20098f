import MaskForge.Automaton.RefEngine
/-!
# FromRows — an engine from the rows of its states

Both builders lay a table of rows out as arrays.  `RefEngine.ofRows` does the same for a table given as it is, and what
is left to check of the table is decidable.
-/
namespace MaskForge

open CountingSort (start slice_flatten)

/-- A class function, the rows of the states and which of them accept. -/
structure EngineRows where
  ofByte : Byte → Nat
  classCount : Nat
  rows : List (List (Nat × Nat))
  accepting : List Bool
  start : Nat

/-- The classes of a row. -/
def liveOf : List (Nat × Nat) → BitVec 256
  | [] => 0
  | a :: row => BitVec.twoPow 256 a.1 ||| liveOf row

def EngineRows.toData (r : EngineRows) : EngineData where
  rowOffsets := (List.range (r.rows.length + 1)).map (CountingSort.start r.rows)
  edges := r.rows.flatten
  accepting := r.accepting
  residualCardinality := []
  liveClasses := r.rows.map liveOf
  classTable := ⟨(List.range r.classCount).map (fun c => ((List.range 256).map UInt8.ofNat).filter (r.ofByte · = c)),
    r.ofByte⟩
  classCount := r.classCount
  stateCount := r.rows.length
  start := r.start

/-- What a table has to meet. -/
structure EngineRows.Wf (r : EngineRows) : Prop where
  sorted : ∀ row ∈ r.rows, row.Pairwise (fun a b => a.1 < b.1)
  targets : ∀ row ∈ r.rows, ∀ a ∈ row, a.1 < r.classCount ∧ a.2 ≠ dead ∧ a.2 < r.rows.length
  deadRow : r.rows[dead]? = some []
  acceptingLen : r.accepting.length = r.rows.length
  deadRejects : r.accepting[dead]? = some false
  classOf : ∀ b, r.ofByte b < r.classCount
  classCap : r.classCount ≤ 256
  startLt : r.start < r.rows.length

theorem getLsbD_liveOf {c : Nat} : ∀ {row : List (Nat × Nat)}, (∀ a ∈ row, a.1 < 256) →
    ((liveOf row).getLsbD c = true ↔ ∃ t, (c, t) ∈ row)
  | [], _ => by simp [liveOf]
  | (k, u) :: row, h => by
    have hk : k < 256 := h (k, u) List.mem_cons_self
    rw [liveOf, BitVec.getLsbD_or, BitVec.getLsbD_twoPow, Bool.or_eq_true,
      getLsbD_liveOf fun a ha => h a (List.mem_cons_of_mem _ ha)]
    simp only [hk, decide_true, Bool.true_and, decide_eq_true_eq, List.mem_cons]
    constructor
    · rintro (rfl | ⟨t, ht⟩)
      · exact ⟨u, .inl rfl⟩
      · exact ⟨t, .inr ht⟩
    · rintro ⟨t, ht | ht⟩
      · cases ht
        exact .inl rfl
      · exact .inr ⟨t, ht⟩

namespace EngineRows
variable {r : EngineRows}

theorem row_toData {s : Nat} {row : List (Nat × Nat)} (h : r.rows[s]? = some row) : r.toData.row s = row := by
  have hs := (List.getElem?_eq_some_iff.1 h).1
  unfold EngineData.row EngineRows.toData
  simp only [List.getElem?_map, List.getElem?_range (show s < r.rows.length + 1 by omega),
    List.getElem?_range (show s + 1 < r.rows.length + 1 by omega), Option.map_some]
  exact slice_flatten r.rows s row h

/-- **A table that meets its conditions is an engine.** -/
theorem Wf.toData (h : r.Wf) : r.toData.Wf where
  rows := by simp [EngineRows.toData]
  sorted := by
    intro s hs
    have hget := List.getElem?_eq_getElem (show s < r.rows.length from hs)
    rw [row_toData hget]
    exact h.sorted _ (List.getElem_mem hs)
  targets := by
    intro s hs a ha
    have hget := List.getElem?_eq_getElem (show s < r.rows.length from hs)
    rw [row_toData hget] at ha
    exact h.targets _ (List.getElem_mem hs) a ha
  deadRow := row_toData h.deadRow
  acceptingLen := h.acceptingLen
  deadRejects := h.deadRejects
  liveLen := by simp [EngineRows.toData]
  live := by
    intro s m hm c
    obtain ⟨row, hrow, rfl⟩ := Option.map_eq_some_iff.1 ((List.getElem?_map ..).symm.trans hm)
    rw [row_toData hrow]
    refine getLsbD_liveOf fun a ha => ?_
    exact Nat.lt_of_lt_of_le (h.targets row (List.mem_of_getElem? hrow) a ha).1 h.classCap
  classes := by simp [EngineRows.toData]
  classOf := h.classOf
  members := by
    intro c bs hbs b
    have hc := (List.getElem?_eq_some_iff.1 hbs).1
    simp only [EngineRows.toData, List.length_map, List.length_range] at hc
    simp only [EngineRows.toData, List.getElem?_map, List.getElem?_range hc, Option.map_some, Option.some.injEq] at hbs
    rw [← hbs, List.mem_filter, decide_eq_true_eq]
    exact ⟨fun h => h.2, fun h => ⟨mem_every b, h⟩⟩
  classCap := h.classCap
  startLt := h.startLt

end EngineRows

def RefEngine.ofRows (r : EngineRows) (h : r.Wf) : RefEngine := ⟨r.toData, h.toData⟩

/-- The engine of the word of one byte. -/
def byteRows (b : Byte) : EngineRows where
  ofByte := fun x => if x = b then 0 else 1
  classCount := 2
  rows := [[], [(0, 2)], []]
  accepting := [false, false, true]
  start := 1

theorem byteRows_wf (b : Byte) : (byteRows b).Wf where
  sorted := show ∀ row ∈ [[], [(0, 2)], []], row.Pairwise (fun (a b : Nat × Nat) => a.1 < b.1) by decide
  targets := show ∀ row ∈ [[], [(0, 2)], []], ∀ a ∈ row, a.1 < 2 ∧ a.2 ≠ dead ∧ a.2 < 3 by decide
  deadRow := rfl
  acceptingLen := rfl
  deadRejects := rfl
  classOf := by
    intro x
    unfold byteRows
    dsimp only
    split <;> decide
  classCap := show 2 ≤ 256 by decide
  startLt := show 1 < 3 by decide

def byteEngine (b : Byte) : RefEngine := .ofRows (byteRows b) (byteRows_wf b)

end MaskForge
