import MaskForge.Mask
import MaskForge.Lib.CountingSort
/-!
# RefEngine — the byte automaton every mask is read from

States are dense, state 0 is DEAD, and a row of transitions lists the classes a state can move on, in ascending order.
The two builders of the source (`graph_to_engine`, `bfs_materialize`) drop every edge into DEAD and record the classes
left in `live_classes`; that agreement is what makes the live-class test of the joint walk a pure pre-filter, and it is
carried by the structure.
-/
namespace MaskForge

open CountingSort (slice)

/-- `DEAD`, the canonical dead sink. -/
def dead : Nat := 0

structure ClassTable where
  members : List (List Byte)
  ofByte : Byte → Nat

theorem mem_every (b : Byte) : b ∈ (List.range 256).map UInt8.ofNat :=
  List.mem_map.2 ⟨b.toNat, List.mem_range.2 b.toNat_lt, UInt8.ofNat_toNat⟩

/-- The live classes of a state that goes on in the first class alone. -/
theorem getLsbD_first (c : Nat) : (1 : BitVec 256).getLsbD c = decide (c = 0) := by
  rw [show (1 : BitVec 256) = 1#256 from rfl, BitVec.getLsbD_one]
  simp

/-- The transition arrays and per-state data, as the builders leave them. -/
structure EngineData where
  rowOffsets : List Nat
  edges : List (Nat × Nat)
  accepting : List Bool
  residualCardinality : List Nat
  liveClasses : List (BitVec 256)
  classTable : ClassTable
  classCount : Nat
  stateCount : Nat
  start : Nat

namespace EngineData

/-- A state's transitions, between its two row offsets. -/
def row (e : EngineData) (s : Nat) : List (Nat × Nat) :=
  match e.rowOffsets[s]?, e.rowOffsets[s + 1]? with
  | some lo, some hi => slice e.edges lo hi
  | _, _ => []

/-- What both builders establish. -/
structure Wf (e : EngineData) : Prop where
  rows : e.rowOffsets.length = e.stateCount + 1
  sorted : ∀ s, s < e.stateCount → (e.row s).Pairwise (fun a b => a.1 < b.1)
  targets : ∀ s, s < e.stateCount → ∀ a ∈ e.row s, a.1 < e.classCount ∧ a.2 ≠ dead ∧ a.2 < e.stateCount
  deadRow : e.row dead = []
  acceptingLen : e.accepting.length = e.stateCount
  deadRejects : e.accepting[dead]? = some false
  liveLen : e.liveClasses.length = e.stateCount
  live : ∀ s m, e.liveClasses[s]? = some m → ∀ c, m.getLsbD c = true ↔ ∃ t, (c, t) ∈ e.row s
  classes : e.classTable.members.length = e.classCount
  classOf : ∀ b, e.classTable.ofByte b < e.classCount
  members : ∀ c bs, e.classTable.members[c]? = some bs → ∀ b, b ∈ bs ↔ e.classTable.ofByte b = c
  classCap : e.classCount ≤ 256
  startLt : e.start < e.stateCount

end EngineData

/-- An engine as the builders return it: an ill-formed one cannot be built. -/
structure RefEngine extends EngineData where
  wf : toEngineData.Wf

namespace RefEngine

variable (e : RefEngine)

def classOfByte (b : Byte) : Nat := e.classTable.ofByte b

/-- The row scan of `step`, which stops at the first class past the one asked for. -/
def scanRow : List (Nat × Nat) → Nat → Nat
  | [], _ => dead
  | (cc, t) :: rest, c => if cc = c then t else if c < cc then dead else scanRow rest c

def step (s c : Nat) : Nat :=
  if e.stateCount ≤ s ∨ e.classCount ≤ c then dead else scanRow (e.row s) c

def liveClassesAt (s : Nat) : BitVec 256 := e.liveClasses[s]?.getD 0

def isAccepting (s : Nat) : Bool := e.accepting[s]?.getD false

def isDead (s : Nat) : Bool := s == dead || decide (e.stateCount ≤ s)

def residualCardinalityAt (s : Nat) : Nat := e.residualCardinality[s]?.getD 0

def consumeToken : Nat → List Byte → Option Nat
  | s, [] => some s
  | s, b :: bs =>
    if s = dead then none
    else if e.step s (e.classOfByte b) = dead then none
    else consumeToken (e.step s (e.classOfByte b)) bs

def accepts (w : List Byte) : Bool :=
  let rec go : Nat → List Byte → Bool
    | s, [] => e.isAccepting s
    | s, b :: bs => if s = dead then false else go (e.step s (e.classOfByte b)) bs
  go e.start w

/-- Sets a record's ids one by one. -/
def setAll : Bitmask → List Nat → Except CompileError Bitmask
  | m, [] => .ok m
  | m, id :: ids => m.set id >>= fun m => setAll m ids

/-- The naive mask: every record's bytes are walked from `s`, and its ids set where the walk survives. -/
def allowedTokensFromRecords (s maskVocabSize : Nat) (records : List (List Byte × List Nat)) :
    Except CompileError Bitmask :=
  records.foldlM (fun m r => if (e.consumeToken s r.1).isSome then setAll m r.2 else .ok m)
    (Bitmask.zeros maskVocabSize)

theorem scanRow_of_mem : ∀ {row : List (Nat × Nat)} {c t : Nat}, row.Pairwise (fun a b => a.1 < b.1) →
    (c, t) ∈ row → scanRow row c = t
  | [], _, _, _, h => by cases h
  | (cc, t') :: rest, c, t, hs, h => by
    rcases List.mem_cons.1 h with h | h
    · cases h
      simp [scanRow]
    · have hlt := List.rel_of_pairwise_cons hs h
      simp only at hlt
      rw [scanRow, if_neg (by omega), if_neg (by omega)]
      exact scanRow_of_mem hs.of_cons h

theorem scanRow_of_not_mem : ∀ {row : List (Nat × Nat)} {c : Nat}, (∀ t, (c, t) ∉ row) → scanRow row c = dead
  | [], _, _ => rfl
  | (cc, t') :: rest, c, h => by
    unfold scanRow
    split
    · rename_i hc
      subst hc
      exact absurd List.mem_cons_self (h t')
    · split
      · rfl
      · exact scanRow_of_not_mem (fun t ht => h t (List.mem_cons_of_mem _ ht))

/-- **A step is its row's edge**, and DEAD where the row has none. -/
theorem step_eq_iff {s c t : Nat} (ht : t ≠ dead) : e.step s c = t ↔ s < e.stateCount ∧ (c, t) ∈ e.row s := by
  constructor
  · intro h
    unfold step at h
    split at h
    · exact absurd h.symm ht
    · rename_i hr
      have hs : s < e.stateCount := by omega
      refine ⟨hs, ?_⟩
      by_contra hc
      by_cases hex : ∃ u, (c, u) ∈ e.row s
      · obtain ⟨u, hu⟩ := hex
        rw [scanRow_of_mem (e.wf.sorted s hs) hu] at h
        exact hc (h ▸ hu)
      · rw [scanRow_of_not_mem (fun u hu => hex ⟨u, hu⟩)] at h
        exact ht h.symm
  · rintro ⟨hs, hmem⟩
    have hc := (e.wf.targets s hs _ hmem).1
    unfold step
    rw [if_neg (by simp only at hc; omega)]
    exact scanRow_of_mem (e.wf.sorted s hs) hmem

/-- A step reads its row. -/
theorem step_eq_lookup {s c : Nat} (hs : s < e.stateCount) : e.step s c = ((e.row s).lookup c).getD dead := by
  cases h : (e.row s).lookup c with
  | none =>
    by_contra hne
    obtain ⟨_, hmem⟩ := (e.step_eq_iff hne).1 rfl
    exact absurd rfl (bne_iff_ne.1 (List.lookup_eq_none_iff.1 h _ hmem))
  | some t =>
    obtain ⟨l, r, hsplit, _⟩ := List.lookup_eq_some_iff.1 h
    have hmem : (c, t) ∈ e.row s := by
      rw [hsplit]
      exact List.mem_append_right _ List.mem_cons_self
    exact (e.step_eq_iff (e.wf.targets s hs _ hmem).2.1).2 ⟨hs, hmem⟩

theorem step_dead (c : Nat) : e.step dead c = dead := by
  by_contra h
  have hmem := ((e.step_eq_iff h).1 rfl).2
  rw [e.wf.deadRow] at hmem
  cases hmem

theorem step_lt {s c : Nat} (h : e.step s c ≠ dead) : e.step s c < e.stateCount := by
  obtain ⟨hs, hmem⟩ := (e.step_eq_iff h).1 rfl
  exact (e.wf.targets s hs _ hmem).2.2

/-- **The live-class test is exactly whether the step survives.** -/
theorem live_iff (s c : Nat) : (e.liveClassesAt s).getLsbD c = true ↔ e.step s c ≠ dead := by
  unfold liveClassesAt
  cases hm : e.liveClasses[s]? with
  | none =>
    have hs : e.stateCount ≤ s := by
      have := List.getElem?_eq_none_iff.1 hm
      rwa [e.wf.liveLen] at this
    simp [step, hs]
  | some m =>
    rw [Option.getD_some, e.wf.live s m hm c]
    constructor
    · rintro ⟨t, ht⟩ hd
      have hs : s < e.stateCount := by
        rw [← e.wf.liveLen]
        exact (List.getElem?_eq_some_iff.1 hm).1
      have hne := (e.wf.targets s hs _ ht).2.1
      have := (e.step_eq_iff hne).2 ⟨hs, ht⟩
      exact hne (this.symm.trans hd)
    · intro h
      exact ⟨_, ((e.step_eq_iff h).1 rfl).2⟩

theorem step_out_of_range {s : Nat} (c : Nat) (h : e.stateCount ≤ s) : e.step s c = dead := by
  simp [step, h]

theorem consumeToken_dead {bs : List Byte} (h : bs ≠ []) : e.consumeToken dead bs = none := by
  cases bs with
  | nil => exact absurd rfl h
  | cons b bs => simp [consumeToken]

theorem consumeToken_append (s : Nat) (a b : List Byte) :
    e.consumeToken s (a ++ b) = (e.consumeToken s a).bind (fun q => e.consumeToken q b) := by
  induction a generalizing s with
  | nil => rfl
  | cons x a ih =>
    simp only [List.cons_append, consumeToken]
    split
    · rfl
    · split
      · rfl
      · exact ih _

/-! ### Words from a state -/

/-- Whether some bytes lead from a state to an accepting one. -/
def acceptsFrom (s : Nat) (w : List Byte) : Bool := accepts.go e s w

/-- The state after some bytes, DEAD included. -/
def stepBytes (s : Nat) (w : List Byte) : Nat := w.foldl (fun s b => e.step s (e.classOfByte b)) s

theorem accepts_eq (w : List Byte) : e.accepts w = e.acceptsFrom e.start w := rfl

theorem isAccepting_dead : e.isAccepting dead = false := by
  rw [isAccepting, e.wf.deadRejects]
  rfl

theorem acceptsFrom_nil (s : Nat) : e.acceptsFrom s [] = e.isAccepting s := rfl

theorem acceptsFrom_dead (w : List Byte) : e.acceptsFrom dead w = false := by
  cases w with
  | nil => exact e.isAccepting_dead
  | cons b bs => rfl

theorem acceptsFrom_cons (s : Nat) (b : Byte) (bs : List Byte) :
    e.acceptsFrom s (b :: bs) = e.acceptsFrom (e.step s (e.classOfByte b)) bs := by
  by_cases hs : s = dead
  · rw [hs, e.step_dead, e.acceptsFrom_dead, e.acceptsFrom_dead]
  · show (if s = dead then false else accepts.go e _ bs) = _
    rw [if_neg hs]
    rfl

theorem stepBytes_dead (w : List Byte) : e.stepBytes dead w = dead := by
  induction w with
  | nil => rfl
  | cons b bs ih =>
    show e.stepBytes (e.step dead _) bs = dead
    rw [e.step_dead, ih]

theorem stepBytes_append (s : Nat) (a b : List Byte) : e.stepBytes s (a ++ b) = e.stepBytes (e.stepBytes s a) b :=
  List.foldl_append

theorem acceptsFrom_append (a b : List Byte) : ∀ s, e.acceptsFrom s (a ++ b) = e.acceptsFrom (e.stepBytes s a) b := by
  induction a with
  | nil => exact fun s => rfl
  | cons x a ih =>
    intro s
    rw [List.cons_append, acceptsFrom_cons, ih]
    rfl

/-- **A walk ends where the steps do**, unless they meet DEAD. -/
theorem consumeToken_eq (w : List Byte) : ∀ s, s ≠ dead →
    e.consumeToken s w = if e.stepBytes s w = dead then none else some (e.stepBytes s w) := by
  induction w with
  | nil =>
    intro s hs
    exact (if_neg hs).symm
  | cons b w ih =>
    intro s hs
    rw [consumeToken, if_neg hs]
    show _ = if e.stepBytes (e.step s _) w = dead then none else some (e.stepBytes (e.step s _) w)
    by_cases hstep : e.step s (e.classOfByte b) = dead
    · rw [if_pos hstep, hstep, e.stepBytes_dead, if_pos rfl]
    · rw [if_neg hstep, ih _ hstep]

/-- **Acceptance is a walk to an accepting state.** -/
theorem acceptsFrom_iff (s : Nat) (w : List Byte) :
    e.acceptsFrom s w = true ↔ ∃ t, e.consumeToken s w = some t ∧ e.isAccepting t = true := by
  by_cases hs : s = dead
  · subst hs
    rw [e.acceptsFrom_dead]
    refine ⟨fun h => absurd h Bool.false_ne_true, ?_⟩
    rintro ⟨t, ht, hacc⟩
    cases w with
    | nil =>
      cases ht
      rw [e.isAccepting_dead] at hacc
      cases hacc
    | cons b w => cases ht
  · have hend : e.acceptsFrom s w = e.isAccepting (e.stepBytes s w) := by
      have h := e.acceptsFrom_append w [] s
      rwa [List.append_nil] at h
    rw [hend, e.consumeToken_eq w s hs]
    by_cases hdead : e.stepBytes s w = dead
    · rw [if_pos hdead, hdead, e.isAccepting_dead]
      simp
    · rw [if_neg hdead]
      simp

theorem isAccepting_stepBytes (w : List Byte) : e.isAccepting (e.stepBytes e.start w) = e.accepts w := by
  have h := e.acceptsFrom_append w [] e.start
  rw [List.append_nil] at h
  exact h.symm

/-- Steps from the start end in range. -/
theorem stepBytes_lt (w : List Byte) : e.stepBytes e.start w < e.stateCount := by
  rcases List.eq_nil_or_concat w with rfl | ⟨init, b, rfl⟩
  · exact e.wf.startLt
  · rw [List.concat_eq_append, e.stepBytes_append]
    by_cases hend : e.step (e.stepBytes e.start init) (e.classOfByte b) = dead
    · show e.step _ _ < _
      rw [hend]
      exact Nat.lt_of_le_of_lt (Nat.zero_le _) e.wf.startLt
    · exact e.step_lt hend

theorem isDead_stepBytes (w : List Byte) : e.isDead (e.stepBytes e.start w) = true ↔ e.stepBytes e.start w = dead := by
  rw [isDead, Bool.or_eq_true, beq_iff_eq, decide_eq_true_eq]
  have := e.stepBytes_lt w
  omega

theorem setAll_ok : ∀ (ids : List Nat) (m m' : Bitmask), m.Tidy → setAll m ids = .ok m' →
    m'.Tidy ∧ m'.vocabSize = m.vocabSize ∧ ∀ j, m'.get j = true ↔ m.get j = true ∨ j ∈ ids
  | [], m, m', hm, h => by
    cases h
    simpa using hm
  | id :: ids, m, m', hm, h => by
    obtain ⟨m₁, h₁, h₂⟩ := bind_ok h
    obtain ⟨htidy, hsize, hg⟩ := Bitmask.get_set hm h₁
    obtain ⟨hs, hv, hj⟩ := setAll_ok ids m₁ m' htidy h₂
    refine ⟨hs, hv.trans hsize, fun j => ?_⟩
    rw [hj j, hg j]
    simp only [Bool.or_eq_true, decide_eq_true_eq, List.mem_cons]
    tauto

/-- **The naive mask's bits**: the ids of the records whose bytes `s` survives. -/
theorem allowedTokensFromRecords_ok {s n : Nat} {records : List (List Byte × List Nat)} {m : Bitmask}
    (h : e.allowedTokensFromRecords s n records = .ok m) : m.Tidy ∧ m.vocabSize = n ∧
    ∀ j, m.get j = true ↔ ∃ r ∈ records, (e.consumeToken s r.1).isSome ∧ j ∈ r.2 := by
  suffices hgen : ∀ (records : List (List Byte × List Nat)) (m₀ m : Bitmask), m₀.Tidy →
      records.foldlM (fun m r => if (e.consumeToken s r.1).isSome then setAll m r.2 else .ok m) m₀ = .ok m →
      m.Tidy ∧ m.vocabSize = m₀.vocabSize ∧
        ∀ j, m.get j = true ↔ m₀.get j = true ∨ ∃ r ∈ records, (e.consumeToken s r.1).isSome ∧ j ∈ r.2 by
    obtain ⟨h1, h2, h3⟩ := hgen records _ m (Bitmask.tidy_zeros n) h
    exact ⟨h1, h2, fun j => by rw [h3 j]; simp⟩
  intro records
  induction records with
  | nil =>
    intro m₀ m hm h
    cases h
    simpa using hm
  | cons r records ih =>
    intro m₀ m hm h
    rw [List.foldlM_cons] at h
    obtain ⟨m₁, h₁, h₂⟩ := bind_ok h
    have hone : m₁.Tidy ∧ m₁.vocabSize = m₀.vocabSize ∧
        ∀ j, m₁.get j = true ↔ m₀.get j = true ∨ ((e.consumeToken s r.1).isSome ∧ j ∈ r.2) := by
      split at h₁
      · rename_i hc
        obtain ⟨a, b, c⟩ := setAll_ok r.2 m₀ m₁ hm h₁
        exact ⟨a, b, fun j => by rw [c j]; simp [hc]⟩
      · rename_i hc
        cases h₁
        exact ⟨hm, rfl, fun j => by simp [hc]⟩
    obtain ⟨a, b, c⟩ := ih m₁ m hone.1 h₂
    refine ⟨a, b.trans hone.2.1, fun j => ?_⟩
    rw [c j, hone.2.2 j]
    simp only [List.mem_cons, exists_eq_or_imp]
    tauto

end RefEngine
end MaskForge
