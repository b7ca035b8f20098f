import MaskForge.Automaton.Materialize
import MaskForge.Lib.Trim
/-!
# Import — a dense byte DFA becomes an engine

The dense DFA comes from a library: its states are opaque, its bytes fall into classes, and whether a text is accepted
is decided by one more step at its end.  `bfs_materialize` explores it by one byte of each class, drops the states that
lead to no accepting one and numbers the rest from one on.
-/
namespace MaskForge

open CountingSort (slice start)

/-- What is asked of the library's DFA. -/
structure DenseDfa (σ : Type) where
  byteClass : Byte → Nat
  start : Option σ
  next : σ → Byte → σ
  nextEoi : σ → σ
  isDead : σ → Bool
  isQuit : σ → Bool
  isMatch : σ → Bool

namespace DenseDfa

def quitErr : CompileError := ⟨.unsupported, .l3, "byte DFA reached a quit state"⟩

section
variable {σ : Type} (d : DenseDfa σ)

/-- **The DFA's own verdict**: the bytes, then the end of the input. -/
def accepts (w : List Byte) : Bool := (d.start.map fun s => d.isMatch (d.nextEoi (w.foldl d.next s))).getD false

/-- What the library promises: bytes of one class have equal transitions, and a dead state is never left and never
accepts. -/
structure Lawful : Prop where
  classes : ∀ s a b, d.byteClass a = d.byteClass b → d.next s a = d.next s b
  dead : ∀ s b, d.isDead s = true → d.isDead (d.next s b) = true
  deadRejects : ∀ s, d.isDead s = true → d.isMatch (d.nextEoi s) = false

/-- The first byte of each class, in order. -/
def firstBytes : List Byte :=
  allBytes.filter fun b => allBytes.all fun a => decide (b.toNat ≤ a.toNat) || decide (d.byteClass a ≠ d.byteClass b)

def buildClassTable : ClassTable :=
  let members := d.firstBytes.map fun r => allBytes.filter fun b => decide (d.byteClass b = d.byteClass r)
  ⟨members, fun b => members.findIdx fun bytes => decide (b ∈ bytes)⟩

/-- The machine of the DFA's states, a letter for each class. -/
def byClasses (members : List (List Byte)) : Explore.Machine σ Nat CompileError where
  accept s := d.isMatch (d.nextEoi s)
  next s c := match members[c]?.bind List.head? with
    | none => .error RefEngine.limitErr
    | some b =>
      let t := d.next s b
      if d.isQuit t then .error quitErr else .ok (if d.isDead t then none else some t)
  room _ := .ok ()
  edge _ _ := .ok ()
  rowEnd _ := .ok ()
  lost := RefEngine.limitErr

/-- The live rows under their numbers. -/
def liveTable (rows : List (Bool × List (Nat × Nat))) (live : List Bool) : List (Bool × List (Nat × Nat)) :=
  (rows.zip live).filterMap fun row =>
    if row.2 then some (row.1.1, Explore.finalRow (Explore.finalIds 1 live) row.1.2) else none

/-- The table the arrays lay out: DEAD first. -/
def importedRows (rows : List (Bool × List (Nat × Nat))) (live : List Bool) (startId : Nat) : EngineRows where
  ofByte := d.buildClassTable.ofByte
  classCount := d.buildClassTable.members.length
  rows := [] :: (liveTable rows live).map Prod.snd
  accepting := false :: (liveTable rows live).map Prod.fst
  start := ((Explore.finalIds 1 live)[startId]?.join).getD dead

def importData [DecidableEq σ] : Except CompileError EngineData := do
  let members := d.buildClassTable.members
  match d.start with
  | none => .error ⟨.malformed, .l3, "anchored start state does not exist"⟩
  | some first =>
    if d.isQuit first then .error quitErr
    else do
      let (startId, s) ← Explore.explore (d.byClasses members) (List.range members.length) maxMaterializeStates first
      -- a state past the cap is refused when its turn comes
      if ¬ s.queue.isEmpty then .error RefEngine.limitErr
      else
        let live := Explore.liveRows s.rows
        let r := d.importedRows s.rows live startId
        if maxTransitionCells < (live.count true + 1) * members.length then .error RefEngine.limitErr
        else if maxTransitionCells < r.toData.edges.length then .error RefEngine.limitErr
        else do
          let residual ← residualCardinalities r.toData.rowOffsets r.toData.edges r.accepting members
          return { r.toData with classTable := d.buildClassTable, residualCardinality := residual }

/-! ### Classes -/

variable {d}

theorem mem_firstBytes {b : Byte} :
    b ∈ d.firstBytes ↔ ∀ a : Byte, a.toNat < b.toNat → d.byteClass a ≠ d.byteClass b := by
  rw [firstBytes, List.mem_filter, and_iff_right (mem_allBytes b), List.all_eq_true]
  constructor
  · intro h a hlt
    have ha := h a (mem_allBytes a)
    rw [Bool.or_eq_true, decide_eq_true_eq, decide_eq_true_eq] at ha
    exact ha.resolve_left (Nat.not_le.2 hlt)
  · intro h a _
    rw [Bool.or_eq_true, decide_eq_true_eq, decide_eq_true_eq]
    exact (Nat.lt_or_ge a.toNat b.toNat).elim (fun hlt => .inr (h a hlt)) .inl

/-- Every byte has the class of a first byte. -/
theorem exists_firstByte (b : Byte) : ∃ r ∈ d.firstBytes, d.byteClass r = d.byteClass b := by
  obtain ⟨n, hn⟩ : ∃ n, n = b.toNat := ⟨_, rfl⟩
  induction n using Nat.strong_induction_on generalizing b with
  | _ n ih =>
    by_cases hfirst : b ∈ d.firstBytes
    · exact ⟨b, hfirst, rfl⟩
    · rw [mem_firstBytes] at hfirst
      simp only [not_forall, not_not] at hfirst
      obtain ⟨a, hlt, hclass⟩ := hfirst
      obtain ⟨r, hr, heq⟩ := ih a.toNat (hn ▸ hlt) a rfl
      exact ⟨r, hr, heq.trans hclass⟩

/-- A class has one first byte. -/
theorem firstByte_unique {r r' : Byte} (hr : r ∈ d.firstBytes) (hr' : r' ∈ d.firstBytes)
    (h : d.byteClass r = d.byteClass r') : r = r' := by
  rcases Nat.lt_trichotomy r.toNat r'.toNat with hlt | heq | hlt
  · exact absurd h (mem_firstBytes.1 hr' r hlt)
  · exact UInt8.toNat_inj.1 heq
  · exact absurd h.symm (mem_firstBytes.1 hr r' hlt)

theorem nodup_firstBytes : d.firstBytes.Nodup := nodup_allBytes.filter _

theorem getElem?_members (c : Nat) : d.buildClassTable.members[c]? =
    d.firstBytes[c]?.map fun r => allBytes.filter fun b => decide (d.byteClass b = d.byteClass r) :=
  List.getElem?_map ..

theorem mem_member {c : Nat} {bytes : List Byte} (h : d.buildClassTable.members[c]? = some bytes) :
    ∃ r, d.firstBytes[c]? = some r ∧
    ∀ b, b ∈ bytes ↔ d.byteClass b = d.byteClass r := by
  rw [getElem?_members] at h
  obtain ⟨r, hr, rfl⟩ := Option.map_eq_some_iff.1 h
  refine ⟨r, hr, fun b => ?_⟩
  rw [List.mem_filter, decide_eq_true_eq, and_iff_right (mem_allBytes b)]

/-- **A byte's class is the one that lists it.** -/
theorem member_iff {c : Nat} {bytes : List Byte} (h : d.buildClassTable.members[c]? = some bytes) (b : Byte) :
    b ∈ bytes ↔ d.buildClassTable.ofByte b = c := by
  obtain ⟨r, hr, hmem⟩ := mem_member h
  have hlisted : d.buildClassTable.ofByte b < d.buildClassTable.members.length := by
    obtain ⟨r', hr', hclass⟩ := exists_firstByte (d := d) b
    refine List.findIdx_lt_length_of_exists ⟨_, List.mem_map_of_mem hr', decide_eq_true ?_⟩
    rw [List.mem_filter, decide_eq_true_eq, hclass]
    exact ⟨mem_allBytes b, rfl⟩
  have hget := List.getElem?_eq_getElem hlisted
  have hself : b ∈ d.buildClassTable.members[d.buildClassTable.ofByte b] :=
    of_decide_eq_true (List.findIdx_getElem (w := hlisted))
  obtain ⟨r', hr', hmem'⟩ := mem_member hget
  constructor
  · intro hb
    have hsame := firstByte_unique (List.mem_of_getElem? hr') (List.mem_of_getElem? hr)
      (((hmem' b).1 hself).symm.trans ((hmem b).1 hb))
    rw [hsame] at hr'
    exact (List.getElem?_inj (List.getElem?_eq_some_iff.1 hr').1 nodup_firstBytes).1 (hr'.trans hr.symm)
  · rintro rfl
    rw [h] at hget
    rw [Option.some.inj hget]
    exact hself

theorem ofByte_lt (b : Byte) : d.buildClassTable.ofByte b < d.buildClassTable.members.length := by
  obtain ⟨r, hr, hclass⟩ := exists_firstByte (d := d) b
  obtain ⟨c, hc⟩ := List.mem_iff_getElem?.1 hr
  have hmembers := getElem?_members (d := d) c
  rw [hc, Option.map_some] at hmembers
  have hb : b ∈ allBytes.filter fun b => decide (d.byteClass b = d.byteClass r) := by
    rw [List.mem_filter, decide_eq_true_eq, hclass]
    exact ⟨mem_allBytes b, rfl⟩
  rw [(member_iff hmembers b).1 hb]
  exact (List.getElem?_eq_some_iff.1 hmembers).1

/-- A class is entered by one of its bytes. -/
theorem head_member {c : Nat} (hc : c < d.buildClassTable.members.length) :
    ∃ r, d.buildClassTable.members[c]?.bind List.head? = some r ∧
    d.buildClassTable.ofByte r = c ∧ ∀ b, d.buildClassTable.ofByte b = c → d.byteClass b = d.byteClass r := by
  have hget := List.getElem?_eq_getElem hc
  obtain ⟨r, _, hmem⟩ := mem_member hget
  have hr : r ∈ d.buildClassTable.members[c] := (hmem r).2 rfl
  cases hbytes : d.buildClassTable.members[c] with
  | nil =>
    rw [hbytes] at hr
    cases hr
  | cons b rest =>
    have hb : b ∈ d.buildClassTable.members[c] := by
      rw [hbytes]
      exact List.mem_cons_self
    refine ⟨b, by rw [hget, hbytes]; rfl, (member_iff hget b).1 hb, fun x hx => ?_⟩
    rw [(hmem x).1 ((member_iff hget x).2 hx), (hmem b).1 hb]

/-! ### The table -/

section
variable {rows : List (Bool × List (Nat × Nat))} {live : List Bool} {startId : Nat}

theorem length_liveTable (hlen : live.length = rows.length) : (liveTable rows live).length = live.count true :=
  Explore.length_kept (fun row : Bool × List (Nat × Nat) => (row.1, Explore.finalRow (Explore.finalIds 1 live) row.2))
    hlen

theorem length_importedRows (d : DenseDfa σ) (startId : Nat) (hlen : live.length = rows.length) :
    (d.importedRows rows live startId).rows.length = live.count true + 1 := by
  rw [importedRows, List.length_cons, List.length_map, length_liveTable hlen]

/-- A live row stands at its number. -/
theorem getElem?_liveTable {i m : Nat} {row : Bool × List (Nat × Nat)} (hrow : rows[i]? = some row)
    (hm : (Explore.finalIds 1 live)[i]?.join = some m) :
    (liveTable rows live)[m - 1]? = some (row.1, Explore.finalRow (Explore.finalIds 1 live) row.2) := by
  obtain ⟨hi, rfl, _⟩ := Explore.finalIds_some hm
  rw [Nat.add_sub_cancel_left]
  exact Explore.getElem?_kept (fun row : Bool × List (Nat × Nat) =>
    (row.1, Explore.finalRow (Explore.finalIds 1 live) row.2)) hrow hi

theorem mem_liveTable {row : Bool × List (Nat × Nat)} (h : row ∈ liveTable rows live) :
    ∃ row' ∈ rows, row.2 = Explore.finalRow (Explore.finalIds 1 live) row'.2 := by
  obtain ⟨p, hp, h⟩ := List.mem_filterMap.1 h
  split at h
  · cases h
    exact ⟨p.1, (List.of_mem_zip hp).1, rfl⟩
  · cases h

theorem importedRows_wf (startId : Nat) (hlen : live.length = rows.length)
    (hsub : ∀ row ∈ rows, (row.2.map Prod.fst).Sublist (List.range d.buildClassTable.members.length)) :
    (d.importedRows rows live startId).Wf where
  sorted := by
    intro row hrow
    rcases List.mem_cons.1 hrow with rfl | hrow
    · exact List.Pairwise.nil
    · obtain ⟨row₁, hrow₁, rfl⟩ := List.mem_map.1 hrow
      obtain ⟨row₂, hrow₂, heq⟩ := mem_liveTable hrow₁
      have hsorted := List.pairwise_lt_range.sublist ((Explore.finalRow_letters (Explore.finalIds 1 live) row₂.2).trans
        (hsub row₂ hrow₂))
      rw [heq]
      exact List.pairwise_map.1 hsorted
  targets := by
    intro row hrow a ha
    rcases List.mem_cons.1 hrow with rfl | hrow
    · cases ha
    · obtain ⟨row₁, hrow₁, rfl⟩ := List.mem_map.1 hrow
      obtain ⟨row₂, hrow₂, heq⟩ := mem_liveTable hrow₁
      rw [heq] at ha
      obtain ⟨t, hmem, ht⟩ := Explore.mem_finalRow.1 ha
      obtain ⟨_, hm, hlt⟩ := Explore.finalIds_some ht
      refine ⟨List.mem_range.1 ((hsub row₂ hrow₂).subset (List.mem_map.2 ⟨_, hmem, rfl⟩)), ?_, ?_⟩
      · rw [hm, dead]
        omega
      · rw [length_importedRows d startId hlen]
        omega
  deadRow := rfl
  acceptingLen := by rw [importedRows, List.length_cons, List.length_cons, List.length_map, List.length_map]
  deadRejects := rfl
  classOf := ofByte_lt
  classCap := by
    show (List.map _ _).length ≤ 256
    rw [List.length_map, ← length_allBytes]
    exact List.length_filter_le _ _
  startLt := by
    rw [length_importedRows d startId hlen]
    show ((Explore.finalIds 1 live)[startId]?.join).getD dead < _
    cases h : (Explore.finalIds 1 live)[startId]?.join with
    | none => exact Nat.succ_pos _
    | some m =>
      obtain ⟨_, _, hlt⟩ := Explore.finalIds_some h
      rw [Option.getD_some]
      omega

end

/-! ### The engine -/

variable {data : EngineData}

/-- **What an import that returns has computed**: the arrays of the table of the states explored. -/
theorem importData_ok [DecidableEq σ] (h : d.importData = .ok data) : ∃ first startId s residual, d.start = some first ∧
    Explore.explore (d.byClasses d.buildClassTable.members) (List.range d.buildClassTable.members.length)
    maxMaterializeStates first =
      .ok (startId, s) ∧ s.queue = [] ∧
    residualCardinalities data.rowOffsets data.edges data.accepting data.classTable.members = .ok residual ∧
    data = { (d.importedRows s.rows (Explore.liveRows s.rows) startId).toData with
      classTable := d.buildClassTable, residualCardinality := residual } := by
  unfold importData at h
  dsimp only at h
  split at h
  · cases h
  · rename_i first hfirst
    split at h
    · cases h
    · obtain ⟨⟨startId, s⟩, hexplore, h⟩ := bind_ok h
      dsimp only at h
      split at h
      · cases h
      · rename_i hempty
        split at h
        · cases h
        · split at h
          · cases h
          · obtain ⟨residual, hresidual, h⟩ := bind_ok h
            cases h
            exact ⟨first, startId, s, residual, hfirst, hexplore, by simpa using hempty, hresidual, rfl⟩

/-- An exploration by the classes. -/
theorem explore_classes [DecidableEq σ] {first : σ} {startId : Nat} {s : Explore.State σ Nat}
    (h : Explore.explore (d.byClasses d.buildClassTable.members)
      (List.range d.buildClassTable.members.length) maxMaterializeStates first =
      .ok (startId, s)) (hq : s.queue = []) :
    startId = 0 ∧ Explore.Inv (d.byClasses d.buildClassTable.members)
    (List.range d.buildClassTable.members.length) first s ∧
      s.rows.length = s.keys.length ∧ Explore.Tidy s.rows := by
  obtain ⟨hid, hinv, _⟩ := Explore.explore_inv (B := fun _ => True) (fun _ _ _ _ => trivial) trivial List.nodup_range h
  exact ⟨hid, hinv, hinv.all_rows hq, Explore.explore_tidy List.nodup_range h⟩

theorem importData_wf [DecidableEq σ] (h : d.importData = .ok data) : data.Wf := by
  obtain ⟨first, startId, s, residual, _, hexplore, hq, _, rfl⟩ := importData_ok h
  obtain ⟨_, _, _, htidy⟩ := explore_classes hexplore hq
  have hwf := (importedRows_wf (d := d) startId (Explore.liveRows_spec htidy).1
    (Explore.explore_letters hexplore)).toData
  exact ⟨hwf.rows, hwf.sorted, hwf.targets, hwf.deadRow, hwf.acceptingLen, hwf.deadRejects, hwf.liveLen, hwf.live, rfl,
    ofByte_lt, fun _ _ hbs b => member_iff hbs b, hwf.classCap, hwf.startLt⟩

/-- `bfs_materialize`: what the import returns is an engine. -/
def bfsMaterialize [DecidableEq σ] (d : DenseDfa σ) : Except CompileError RefEngine :=
  match h : d.importData with
  | .ok data => .ok ⟨data, importData_wf h⟩
  | .error e => .error e

/-! ### The language -/

/-- A text whose bytes lead into a dead state is not accepted. -/
theorem Lawful.rejects (hd : d.Lawful) :
    ∀ (w : List Byte) {s : σ}, d.isDead s = true → d.isMatch (d.nextEoi (w.foldl d.next s)) = false
  | [], s, h => hd.deadRejects s h
  | b :: w, s, h => hd.rejects w (hd.dead s b h)

/-- What the machine does with a byte's class is what the DFA does with the byte. -/
theorem byClasses_next (hd : d.Lawful) {s : σ} {b : Byte} {t : Option σ}
    (h : (d.byClasses d.buildClassTable.members).next s (d.buildClassTable.ofByte b) = .ok t) :
    t = if d.isDead (d.next s b) then none else some (d.next s b) := by
  obtain ⟨r, hr, _, hclass⟩ := head_member (ofByte_lt (d := d) b)
  dsimp only [byClasses] at h
  rw [hr] at h
  dsimp only at h
  rw [← hd.classes s b r (hclass b rfl)] at h
  split at h
  · cases h
  · exact (Except.ok.inj h).symm

/-- **The rows accept what the DFA does.** -/
theorem accepts_rows [DecidableEq σ] (hd : d.Lawful) {first : σ} {s : Explore.State σ Nat}
    (hinv : Explore.Inv (d.byClasses d.buildClassTable.members) (List.range d.buildClassTable.members.length) first s)
    (hall : s.rows.length = s.keys.length) : ∀ (w : List Byte) {i : Nat} {k : σ}, s.keys[i]? = some k →
      Explore.accepts s.rows i (w.map d.buildClassTable.ofByte) = d.isMatch (d.nextEoi (w.foldl d.next k))
  | [], i, k, hk => by
    obtain ⟨row, hrow, _⟩ := hinv.row hall hk
    rw [List.map_nil, Explore.accepts, hrow]
    rfl
  | b :: w, i, k, hk => by
    obtain ⟨row, hrow, hof⟩ := hinv.row hall hk
    rw [List.map_cons, Explore.accepts, hrow, Option.bind_some, List.foldl_cons]
    rcases hof _ (List.mem_range.2 (ofByte_lt (d := d) b)) with ⟨hnext, hnone⟩ | ⟨k', j, hnext, hsome, hj⟩
    · have hdead := byClasses_next hd hnext
      split at hdead
      · rename_i hdead'
        rw [hnone, hd.rejects w hdead']
      · cases hdead
    · have hlive := byClasses_next hd hnext
      split at hlive
      · cases hlive
      · rw [hsome, ← Option.some.inj hlive]
        exact accepts_rows hd hinv hall w hj

variable {e : RefEngine}

/-- **The engine follows the numbering.** -/
theorem bfsMaterialize_ok [DecidableEq σ] (h : d.bfsMaterialize = .ok e) : ∃ first s, d.start = some first ∧
    Explore.Inv (d.byClasses d.buildClassTable.members) (List.range d.buildClassTable.members.length) first s ∧
    s.rows.length = s.keys.length ∧ Explore.Tidy s.rows ∧
    (∀ row ∈ s.rows, (row.2.map Prod.fst).Sublist (List.range d.buildClassTable.members.length)) ∧
    e.start = ((Explore.finalIds 1 (Explore.liveRows s.rows))[0]?.join).getD dead ∧
    e.stateCount = (Explore.liveRows s.rows).count true + 1 ∧ e.classTable = d.buildClassTable ∧
    residualCardinalities e.rowOffsets e.edges e.accepting e.classTable.members = .ok e.residualCardinality ∧
    ∀ (i m : Nat) (row : Bool × List (Nat × Nat)), s.rows[i]? = some row →
    (Explore.finalIds 1 (Explore.liveRows s.rows))[i]?.join = some m →
      e.isAccepting m = row.1 ∧
        ∀ c, e.step m c = ((row.2.lookup c).bind fun t => (Explore.finalIds 1 (Explore.liveRows s.rows))[t]?.join).getD
        dead := by
  have hdata : d.importData = .ok e.toEngineData := by
    unfold bfsMaterialize at h
    split at h
    · rename_i data hdata
      cases h
      exact hdata
    · cases h
  obtain ⟨first, startId, s, residual, hfirst, hexplore, hq, hresidual, heq⟩ := importData_ok hdata
  obtain ⟨rfl, hinv, hall, htidy⟩ := explore_classes hexplore hq
  have hlen := (Explore.liveRows_spec htidy).1
  have hcount : e.stateCount = (Explore.liveRows s.rows).count true + 1 := by
    rw [heq]
    exact length_importedRows d 0 hlen
  have hres : e.residualCardinality = residual := by rw [heq]
  refine ⟨first, s, hfirst, hinv, hall, htidy, Explore.explore_letters hexplore, by
    rw [heq]; rfl, hcount, by rw [heq], ?_,
    fun i m row hrow hm => ?_⟩
  · rw [hres]
    exact hresidual
  · obtain ⟨_, hmval, hlt⟩ := Explore.finalIds_some hm
    obtain ⟨n, rfl⟩ : ∃ n, m = n + 1 := ⟨m - 1, by omega⟩
    have hkept := getElem?_liveTable hrow hm
    rw [Nat.add_sub_cancel] at hkept
    constructor
    · have hacc : e.accepting = (d.importedRows s.rows (Explore.liveRows s.rows) 0).accepting := by rw [heq]; rfl
      rw [RefEngine.isAccepting, hacc, importedRows, List.getElem?_cons_succ, List.getElem?_map, hkept]
      rfl
    · intro c
      have hget : (d.importedRows s.rows (Explore.liveRows s.rows) 0).rows[n + 1]? =
          some (Explore.finalRow (Explore.finalIds 1 (Explore.liveRows s.rows)) row.2) := by
        rw [importedRows, List.getElem?_cons_succ, List.getElem?_map, hkept]
        rfl
      have hrow' : e.row (n + 1) = Explore.finalRow (Explore.finalIds 1 (Explore.liveRows s.rows)) row.2 := by
        rw [← EngineRows.row_toData hget, heq]
        rfl
      rw [e.step_eq_lookup (by omega), hrow', Explore.lookup_finalRow (htidy row (List.mem_of_getElem? hrow))]

/-- **From every state the engine accepts what the rows do.** -/
theorem acceptsFrom_numbered {rows : List (Bool × List (Nat × Nat))} (htidy : Explore.Tidy rows)
    (hclass : e.classTable = d.buildClassTable)
    (he : ∀ (i m : Nat) (row : Bool × List (Nat × Nat)), rows[i]? = some row →
      (Explore.finalIds 1 (Explore.liveRows rows))[i]?.join = some m →
      e.isAccepting m = row.1 ∧ ∀ c, e.step m c =
      ((row.2.lookup c).bind fun t => (Explore.finalIds 1 (Explore.liveRows rows))[t]?.join).getD dead)
    (w : List Byte) : ∀ i m : Nat, (Explore.finalIds 1 (Explore.liveRows rows))[i]?.join = some m →
      e.acceptsFrom m w = Explore.accepts rows i (w.map d.buildClassTable.ofByte) := by
  obtain ⟨hlen, hlive⟩ := Explore.liveRows_spec htidy
  have hrow : ∀ {i m : Nat}, (Explore.finalIds 1 (Explore.liveRows rows))[i]?.join = some m →
    ∃ row, rows[i]? = some row := by
    intro i m hm
    have hlt := (List.getElem?_eq_some_iff.1 (Explore.finalIds_some hm).1).1
    rw [hlen] at hlt
    exact ⟨_, List.getElem?_eq_getElem hlt⟩
  induction w with
  | nil =>
    intro i m hm
    obtain ⟨row, hget⟩ := hrow hm
    rw [e.acceptsFrom_nil, (he i m row hget hm).1, List.map_nil, Explore.accepts, hget]
    rfl
  | cons b w ih =>
    intro i m hm
    obtain ⟨row, hget⟩ := hrow hm
    have hof : e.classOfByte b = d.buildClassTable.ofByte b := by rw [RefEngine.classOfByte, hclass]
    rw [e.acceptsFrom_cons, (he i m row hget hm).2, List.map_cons, Explore.accepts, hget, Option.bind_some, hof]
    cases hlookup : row.2.lookup (d.buildClassTable.ofByte b) with
    | none => exact e.acceptsFrom_dead w
    | some t =>
      rw [Option.bind_some]
      by_cases ht : (Explore.liveRows rows)[t]? = some true
      · rw [Explore.finalIds_live ht]
        exact ih t _ (Explore.finalIds_live ht)
      · have hnone : Explore.accepts rows t (w.map d.buildClassTable.ofByte) = false := by
          rw [← Bool.not_eq_true]
          exact fun hw => ht ((hlive t).2 ⟨_, hw⟩)
        rw [Explore.finalIds_not_live ht]
        exact (e.acceptsFrom_dead w).trans hnone.symm

/-- Words of classes are words of bytes. -/
theorem exists_bytes : ∀ {cs : List Nat}, (∀ c ∈ cs, c ∈ List.range d.buildClassTable.members.length) →
    ∃ w : List Byte, w.map d.buildClassTable.ofByte = cs
  | [], _ => ⟨[], rfl⟩
  | c :: cs, h => by
    obtain ⟨r, _, hr, _⟩ := head_member (d := d) (List.mem_range.1 (h c List.mem_cons_self))
    obtain ⟨w, hw⟩ := exists_bytes fun x hx => h x (List.mem_cons_of_mem _ hx)
    exact ⟨r :: w, by rw [List.map_cons, hr, hw]⟩

/-- Every state but DEAD leads to acceptance. -/
theorem bfsMaterialize_live [DecidableEq σ] (h : d.bfsMaterialize = .ok e) {m : Nat} (hm : m ≠ dead)
    (hlt : m < e.stateCount) :
    ∃ w, e.acceptsFrom m w = true := by
  obtain ⟨first, s, _, _, _, htidy, hsub, _, hcount, hclass, _, hnumbered⟩ := bfsMaterialize_ok h
  obtain ⟨_, hlive⟩ := Explore.liveRows_spec htidy
  rw [hcount] at hlt
  obtain ⟨n, rfl⟩ : ∃ n, m = 1 + n := ⟨m - 1, by unfold dead at hm; omega⟩
  obtain ⟨i, hi⟩ := Explore.finalIds_onto 1 (show n < (Explore.liveRows s.rows).count true by omega)
  obtain ⟨cs, hcs⟩ := (hlive i).1 (Explore.finalIds_some hi).1
  obtain ⟨w, rfl⟩ := exists_bytes (Explore.accepts_letters hsub hcs)
  exact ⟨w, by rw [acceptsFrom_numbered htidy hclass hnumbered w i _ hi]; exact hcs⟩

/-- **An import keeps the language and trims**: the engine accepts what the DFA does, no state but DEAD is a dead end,
and the start is DEAD exactly if nothing is accepted. -/
theorem bfsMaterialize_exact [DecidableEq σ] (hd : d.Lawful) (h : d.bfsMaterialize = .ok e) :
    (∀ w, e.accepts w = d.accepts w) ∧ (∀ s, e.isDead s = false → ∃ w, e.acceptsFrom s w = true) ∧
      (e.start = dead ↔ ∀ w, d.accepts w = false) := by
  obtain ⟨first, s, hfirst, hinv, hall, htidy, _, hstart, _, hclass, _, hnumbered⟩ := bfsMaterialize_ok h
  obtain ⟨_, hlive⟩ := Explore.liveRows_spec htidy
  have hfrom := acceptsFrom_numbered htidy hclass hnumbered
  have hlang : ∀ w, d.accepts w = Explore.accepts s.rows 0 (w.map d.buildClassTable.ofByte) := by
    intro w
    rw [accepts_rows hd hinv hall w hinv.first, DenseDfa.accepts, hfirst]
    rfl
  have haccepts : ∀ w, e.accepts w = d.accepts w := by
    intro w
    rw [hlang, e.accepts_eq, hstart]
    by_cases h0 : (Explore.liveRows s.rows)[0]? = some true
    · rw [Explore.finalIds_live h0]
      exact hfrom w 0 _ (Explore.finalIds_live h0)
    · have hnone : Explore.accepts s.rows 0 (w.map d.buildClassTable.ofByte) = false := by
        rw [← Bool.not_eq_true]
        exact fun hw => h0 ((hlive 0).2 ⟨_, hw⟩)
      rw [Explore.finalIds_not_live h0, hnone]
      exact e.acceptsFrom_dead w
  refine ⟨haccepts, fun m hm => ?_, ?_⟩
  · rw [RefEngine.isDead, Bool.or_eq_false_iff, beq_eq_false_iff_ne, decide_eq_false_iff_not, Nat.not_le] at hm
    exact bfsMaterialize_live h hm.1 hm.2
  · constructor
    · intro hdead w
      rw [← haccepts, e.accepts_eq, hdead, e.acceptsFrom_dead]
    · intro hnone
      by_contra hne
      obtain ⟨w, hw⟩ := bfsMaterialize_live h hne e.wf.startLt
      rw [← e.accepts_eq, haccepts, hnone w] at hw
      cases hw

end

/-- The DFA of the texts that are not empty. -/
def someDfa : DenseDfa Bool where
  byteClass := fun _ => 0
  start := some false
  next := fun _ _ => true
  nextEoi := id
  isDead := fun _ => false
  isQuit := fun _ => false
  isMatch := id

theorem someDfa_lawful : someDfa.Lawful :=
  ⟨fun _ _ _ _ => rfl, fun _ _ h => absurd h Bool.false_ne_true, fun _ h => absurd h Bool.false_ne_true⟩

theorem bfsMaterialize_exact_some : ∃ e, someDfa.bfsMaterialize = .ok e ∧ e.accepts [0x61] = true := by
  obtain ⟨e, h⟩ := exists_of_toOption (x := someDfa.bfsMaterialize) (by decide +kernel)
  exact ⟨e, h, by rw [(bfsMaterialize_exact someDfa_lawful h).1]; rfl⟩

end DenseDfa

end MaskForge
