import MaskForge.Automaton.Materialize
/-!
# Language — a graph and its engine accept the same words

The states kept are those from which the graph accepts some word, so what the numbering drops is never missed: from
every state the engine accepts what the graph does.  In such an engine a walk that survives can always be completed.
-/
namespace MaskForge

open CountingSort (slice start)

variable {g : AutomatonGraph} {states : List ByteState}

/-! ### Live states -/

/-- The targets and sources of the edges of a list of states. -/
def pairsOf (sts : List ByteState) (from_ : Nat) : List (Nat × Nat) :=
  (sts.zipIdx from_).flatMap fun state => state.1.2.map fun e => (e.2, state.2)

theorem reversePairs_lays (h : g.Lays states) : ∀ (sts done : List ByteState), done ++ sts = states →
    reversePairs g done.length (sts.mapIdx fun i state =>
      ⟨start (AutomatonGraph.rowsOf states) (i + done.length), state.2.length, state.1⟩) = .ok (pairsOf sts done.length)
  | [], done, _ => rfl
  | state :: sts, done, hall => by
    have hget : states[done.length]? = some state := by
      rw [← hall, List.getElem?_append_right (Nat.le_refl _), Nat.sub_self]; rfl
    have hrest := reversePairs_lays h sts (done ++ [state]) (by rw [List.append_assoc]; exact hall)
    rw [List.length_append, List.length_singleton] at hrest
    have hrows : (sts.mapIdx fun i state => (⟨start (AutomatonGraph.rowsOf states) (i + 1 + done.length),
      state.2.length, state.1⟩ : GraphState)) =
        sts.mapIdx fun i state => ⟨start (AutomatonGraph.rowsOf states) (i + (done.length + 1)), state.2.length,
          state.1⟩ := by
      congr 1
      funext i state
      rw [Nat.add_right_comm, Nat.add_assoc]
    rw [List.mapIdx_cons, reversePairs]
    dsimp only
    rw [Nat.zero_add, h.range hget, hrows, hrest]
    show Except.ok _ = _
    rw [pairsOf, pairsOf, List.zipIdx_cons, List.flatMap_cons, List.map_map]
    rfl

theorem mem_pairsOf {sts : List ByteState} {from_ t s : Nat} : (t, s) ∈ pairsOf sts from_ ↔
    from_ ≤ s ∧ ∃ state, sts[s - from_]? = some state ∧ ∃ b, (b, t) ∈ state.2 := by
  rw [pairsOf, List.mem_flatMap]
  constructor
  · rintro ⟨⟨state, i⟩, hmem, h⟩
    rw [List.mk_mem_zipIdx_iff_le_and_getElem?_sub] at hmem
    obtain ⟨⟨b, t'⟩, he, heq⟩ := List.mem_map.1 h
    cases heq
    exact ⟨hmem.1, state, hmem.2, b, he⟩
  · rintro ⟨hle, state, hget, b, hb⟩
    exact ⟨(state, s), List.mk_mem_zipIdx_iff_le_and_getElem?_sub.2 ⟨hle, hget⟩, List.mem_map.2 ⟨(b, t), hb, rfl⟩⟩

theorem pairsOf_targets (sts : List ByteState) : ∀ from_, (pairsOf sts from_).map Prod.fst =
    (AutomatonGraph.rowsOf sts).flatten.map GraphEdge.target := by
  induction sts with
  | nil => exact fun _ => rfl
  | cons state sts ih =>
    intro from_
    rw [pairsOf, List.zipIdx_cons, List.flatMap_cons, List.map_append]
    show _ ++ (pairsOf sts (from_ + 1)).map Prod.fst = _
    rw [ih]
    simp only [AutomatonGraph.rowsOf, List.map_cons, List.flatten_cons, List.map_append, List.map_map]
    rfl

/-- An edge of the graph, read from its list. -/
theorem transition_of_mem (h : g.Lays states) {s t : Nat} {state : ByteState} {b : Byte} (hs : states[s]? = some state)
    (hb : (b, t) ∈ state.2) : g.transition s b = some t := by
  rw [h.transition, hs, Option.bind_some]
  exact lookup_of_mem (h.bytes state (List.mem_of_getElem? hs)) hb

theorem mem_bucket {α : Type} {xs : List (Nat × α)} {i : Nat} {a : α} : a ∈ CountingSort.bucket xs i ↔ (i, a) ∈ xs := by
  rw [CountingSort.bucket, List.mem_map]
  constructor
  · rintro ⟨⟨j, x⟩, hmem, rfl⟩
    obtain ⟨hmem, heq⟩ := List.mem_filter.1 hmem
    rw [beq_iff_eq] at heq
    exact heq ▸ hmem
  · exact fun h => ⟨(i, a), List.mem_filter.2 ⟨h, beq_self_eq_true i⟩, rfl⟩

/-- **The live states are those from which the graph accepts some word.** -/
theorem graphLiveStates_spec (h : g.Lays states) {live : List Bool} (hlive : graphLiveStates g = .ok live) :
    live.length = states.length ∧ ∀ v : Nat, live[v]? = some true ↔ ∃ w, g.acceptsFrom v w = true := by
  unfold graphLiveStates at hlive
  dsimp only at hlive
  split at hlive
  · cases hlive
  · have hpairs : reversePairs g 0 g.states = .ok (pairsOf states 0) := by
      rw [h.statesEq]
      exact reversePairs_lays h states [] rfl
    rw [hpairs] at hlive
    cases hlive
    have htargets : (g.edges.map fun edge => (edge.target, ())).map Prod.fst = (pairsOf states 0).map Prod.fst := by
      rw [pairsOf_targets, ← h.edgesEq, List.map_map]
      rfl
    have hoffset : CountingSort.offset (g.edges.map fun edge => (edge.target, ())) =
      CountingSort.offset (pairsOf states 0) :=
      funext (CountingSort.offset_congr htargets)
    have hlen : g.edges.length = (pairsOf states 0).length := by
      have hl := congrArg List.length htargets
      rwa [List.length_map, List.length_map, List.length_map] at hl
    have hall : ∀ x ∈ pairsOf states 0, x.1 < states.length := by
      rintro ⟨t, s⟩ hx
      obtain ⟨_, state, hget, b, hb⟩ := mem_pairsOf.1 hx
      exact h.targets state (List.mem_of_getElem? hget) _ hb
    have hmarked : ∀ v : Nat, (g.states.map GraphState.accepting)[v]? = some true ↔ g.isAccepting v = true := by
      intro v
      rw [List.getElem?_map, AutomatonGraph.isAccepting]
      cases g.states[v]?.map GraphState.accepting <;> simp
    rw [hoffset, hlen, h.length]
    generalize hpreds : (fun t => slice (List.foldl CountingSort.place _ (pairsOf states 0)).out _ _) = preds
    -- a row of the packed table lists the sources of the edges into a state
    have hmem : ∀ t, t < states.length → ∀ s, s ∈ preds t ↔ ∃ b, g.transition s b = some t := by
      intro t ht s
      rw [← hpreds]
      show s ∈ slice (CountingSort.scatter 0 states.length (pairsOf states 0)).out _ _ ↔ _
      rw [CountingSort.scatter_row 0 _ _ hall t ht, mem_bucket, mem_pairsOf, Nat.sub_zero]
      constructor
      · rintro ⟨_, state, hget, b, hb⟩
        exact ⟨b, transition_of_mem h hget hb⟩
      · rintro ⟨b, hb⟩
        rw [h.transition, Option.bind_eq_some_iff] at hb
        obtain ⟨state, hget, hb⟩ := hb
        exact ⟨Nat.zero_le _, state, hget, b, mem_of_lookup hb⟩
    have hlength : (g.states.map GraphState.accepting).length = states.length := by rw [List.length_map, h.length]
    have hin : ∀ t, t < (g.states.map GraphState.accepting).length → ∀ p ∈ preds t,
      p < (g.states.map GraphState.accepting).length := by
      intro t ht p hp
      rw [hlength] at ht ⊢
      obtain ⟨b, hb⟩ := (hmem t ht p).1 hp
      rw [h.transition, Option.bind_eq_some_iff] at hb
      obtain ⟨state, hget, _⟩ := hb
      exact (List.getElem?_eq_some_iff.1 hget).1
    obtain ⟨hswept, hspec⟩ := Liveness.sweep_spec hin
    refine ⟨hswept.trans hlength, fun v => ?_⟩
    rw [hspec]
    constructor
    · rintro ⟨t, ht, hleads⟩
      have hboth : v < states.length ∧ ∃ w, g.acceptsFrom v w = true := by
        induction hleads using Relation.ReflTransGen.head_induction_on with
        | refl => exact ⟨hlength ▸ (List.getElem?_eq_some_iff.1 ht).1, [], (hmarked t).1 ht⟩
        | head hp _ ih =>
          obtain ⟨hlt, w, hw⟩ := ih
          obtain ⟨b, hb⟩ := (hmem _ hlt _).1 hp
          refine ⟨hlength ▸ hin _ (hlength.symm ▸ hlt) _ hp, b :: w, ?_⟩
          rw [AutomatonGraph.acceptsFrom, hb]
          exact hw
      exact hboth.2
    · rintro ⟨w, hw⟩
      induction w generalizing v with
      | nil => exact ⟨v, (hmarked v).2 hw, .refl⟩
      | cons b w ih =>
        rw [AutomatonGraph.acceptsFrom] at hw
        split at hw
        · rename_i t ht
          obtain ⟨u, hu, hleads⟩ := ih t hw
          exact ⟨u, hu, .head ((hmem t (h.transition_lt ht) v).2 ⟨b, ht⟩) hleads⟩
        · cases hw

/-! ### The engine of a graph -/

variable {e : RefEngine}

theorem fromGraph_data (h : RefEngine.fromGraph g = .ok e) : graphToEngine g = .ok e.toEngineData := by
  unfold RefEngine.fromGraph at h
  split at h
  · rename_i d hd
    cases h
    exact hd
  · cases h

/-- **The engine follows the numbering**: a numbered state accepts as its source does and steps to its
source's target. -/
theorem fromGraph_ok (h : RefEngine.fromGraph g = .ok e) : ∃ live, graphLiveStates g = .ok live ∧
    e.start = (remapLive 1 live)[g.start]?.getD dead ∧ e.stateCount = 1 + live.count true ∧
    ∀ i m : Nat, (remapLive 1 live)[i]? = some m → m ≠ dead →
      e.isAccepting m = g.isAccepting i ∧ ∀ b, e.step m (e.classOfByte b) = mappedRow g (remapLive 1 live) i b := by
  obtain ⟨live, residual, hlive, _, heq⟩ := graphToEngine_ok (fromGraph_data h)
  have hrow : ∀ s, e.row s = (engineRows g live).toData.row s := fun s => by rw [heq]; rfl
  have hcount : e.stateCount = (liveMatrix g live).length := by
    rw [heq]
    exact List.length_map ..
  refine ⟨live, hlive, by rw [heq]; rfl, hcount.trans length_liveMatrix, fun i m hi hm => ⟨?_, fun b => ?_⟩⟩
  · have hacc : e.accepting = liveAccepting g live := by rw [heq]; rfl
    rw [RefEngine.isAccepting, hacc, liveAccepting_self hi hm]
    rfl
  · -- the representative of the byte's class has the byte's column
    have hclass : e.classOfByte b = (graphClassTable (liveMatrix g live)).1.ofByte b := by
      rw [RefEngine.classOfByte, heq]
    obtain ⟨_, _, hof, _⟩ := graphClassTable_spec (liveMatrix g live)
    obtain ⟨r, hr, hcolumn⟩ := hof b
    rw [← hclass] at hr
    have hsame : mappedRow g (remapLive 1 live) i r = mappedRow g (remapLive 1 live) i b := by
      have hat := congrArg (fun column => column[m]?) hcolumn
      simp only [signature, List.getElem?_map, liveMatrix_self (g := g) hi hm, Option.map_some] at hat
      exact Option.some.inj hat
    have hget : (engineRows g live).rows[m]? =
        some (graphRow (graphClassTable (liveMatrix g live)).2 (mappedRow g (remapLive 1 live) i)) := by
      rw [engineRows, List.getElem?_map, liveMatrix_self hi hm, Option.map_some]
    have hm' : m < e.stateCount := by
      rw [hcount, length_liveMatrix]
      exact remap_lt hi
    by_cases hdead : mappedRow g (remapLive 1 live) i b = dead
    · rw [hdead]
      by_contra hne
      obtain ⟨_, hmem⟩ := (e.step_eq_iff hne).1 rfl
      rw [hrow, EngineRows.row_toData hget] at hmem
      obtain ⟨r', hr', hstep, _⟩ := mem_graphRow.1 hmem
      rw [hr] at hr'
      cases hr'
      rw [hsame, hdead] at hstep
      exact hne hstep.symm
    · refine (e.step_eq_iff hdead).2 ⟨hm', ?_⟩
      rw [hrow, EngineRows.row_toData hget]
      exact mem_graphRow.2 ⟨r, hr, hsame, hdead⟩

/-- **From every state the engine accepts what the graph does.** -/
theorem fromGraph_acceptsFrom (h : g.Lays states) {live : List Bool} (hlive : graphLiveStates g = .ok live)
    (he : ∀ i m : Nat, (remapLive 1 live)[i]? = some m → m ≠ dead →
      e.isAccepting m = g.isAccepting i ∧ ∀ b, e.step m (e.classOfByte b) = mappedRow g (remapLive 1 live) i b)
    (w : List Byte) : ∀ i m : Nat, (remapLive 1 live)[i]? = some m → e.acceptsFrom m w = g.acceptsFrom i w := by
  obtain ⟨hlen, hspec⟩ := graphLiveStates_spec h hlive
  have hdeadEnd : ∀ (i : Nat) (w : List Byte), (remapLive 1 live)[i]? = some dead → g.acceptsFrom i w = false := by
    intro i w hi
    rw [Bool.eq_false_iff]
    intro hw
    rcases remapLive_spec (Nat.le_refl 1) hi with ⟨hnot, _⟩ | ⟨_, hpos, _⟩
    · rw [(hspec i).2 ⟨w, hw⟩] at hnot
      cases hnot
    · exact absurd hpos (by decide)
  induction w with
  | nil =>
    intro i m hi
    by_cases hm : m = dead
    · subst hm
      rw [e.acceptsFrom_dead, hdeadEnd i [] hi]
    · exact (he i m hi hm).1
  | cons b w ih =>
    intro i m hi
    by_cases hm : m = dead
    · subst hm
      rw [e.acceptsFrom_dead, hdeadEnd i _ hi]
    · rw [e.acceptsFrom_cons, (he i m hi hm).2, mappedRow, AutomatonGraph.acceptsFrom]
      cases ht : g.transition i b with
      | none => exact e.acceptsFrom_dead w
      | some t =>
        have hlt : t < (remapLive 1 live).length := by
          rw [length_remapLive, hlen]
          exact h.transition_lt ht
        rw [Option.bind_some, List.getElem?_eq_getElem hlt]
        exact ih t _ (List.getElem?_eq_getElem hlt)

/-- **An engine accepts what its graph does, and none of its states but DEAD is a dead end.** -/
theorem fromGraph_language (h : g.Lays states) (he : RefEngine.fromGraph g = .ok e) :
    (∀ w, e.accepts w = g.accepts w) ∧ ∀ s, e.isDead s = false → ∃ w, e.acceptsFrom s w = true := by
  obtain ⟨live, hlive, hstart, hcount, hnumbered⟩ := fromGraph_ok he
  have hall := fromGraph_acceptsFrom h hlive hnumbered
  obtain ⟨hlen, hspec⟩ := graphLiveStates_spec h hlive
  refine ⟨fun w => ?_, fun s hs => ?_⟩
  · have hlt : g.start < (remapLive 1 live).length := by
      rw [length_remapLive, hlen]
      exact h.startLt
    rw [e.accepts_eq, hstart, List.getElem?_eq_getElem hlt]
    exact hall w g.start _ (List.getElem?_eq_getElem hlt)
  · rw [RefEngine.isDead, Bool.or_eq_false_iff, beq_eq_false_iff_ne, decide_eq_false_iff_not, Nat.not_le] at hs
    obtain ⟨i, hi⟩ := remap_onto hs.1 (hcount ▸ hs.2)
    rcases remapLive_spec (Nat.le_refl 1) hi with ⟨_, hdead⟩ | ⟨hlive', _, _⟩
    · exact absurd hdead hs.1
    · obtain ⟨w, hw⟩ := (hspec i).1 hlive'
      exact ⟨w, by rw [hall w i s hi]; exact hw⟩

/-- A walk from a state that is no dead end survives exactly if it can be completed. -/
theorem consumeToken_iff_completable (hlive : ∀ s, e.isDead s = false → ∃ w, e.acceptsFrom s w = true) {s : Nat}
    (hs : s < e.stateCount) {t : List Byte} (hst : s ≠ dead ∨ t ≠ []) :
    ((e.consumeToken s t).isSome ↔ ∃ u, e.acceptsFrom s (t ++ u) = true) ∧ e.consumeToken s t ≠ some dead := by
  by_cases hdead : s = dead
  · subst hdead
    rw [e.consumeToken_dead (hst.resolve_left (fun h => h rfl))]
    refine ⟨⟨fun h => absurd h Bool.false_ne_true, ?_⟩, Option.some_ne_none _ ∘ Eq.symm⟩
    rintro ⟨u, hu⟩
    rw [e.acceptsFrom_dead] at hu
    cases hu
  · rw [e.consumeToken_eq t s hdead]
    by_cases hend : e.stepBytes s t = dead
    · rw [if_pos hend]
      refine ⟨⟨fun h => absurd h Bool.false_ne_true, ?_⟩, Option.some_ne_none _ ∘ Eq.symm⟩
      rintro ⟨u, hu⟩
      rw [e.acceptsFrom_append, hend, e.acceptsFrom_dead] at hu
      cases hu
    · rw [if_neg hend]
      have hin : e.stepBytes s t < e.stateCount := by
        rcases List.eq_nil_or_concat t with rfl | ⟨init, b, rfl⟩
        · exact hs
        · rw [List.concat_eq_append, e.stepBytes_append] at hend ⊢
          exact e.step_lt hend
      have halive : e.isDead (e.stepBytes s t) = false := by
        rw [RefEngine.isDead, Bool.or_eq_false_iff, beq_eq_false_iff_ne, decide_eq_false_iff_not, Nat.not_le]
        exact ⟨hend, hin⟩
      obtain ⟨u, hu⟩ := hlive _ halive
      exact ⟨⟨fun _ => ⟨u, by rw [e.acceptsFrom_append]; exact hu⟩, fun _ => rfl⟩, fun h => hend (Option.some.inj h)⟩

/-- **Materialization keeps the language and trims exactly.**  The engine accepts what the graph does; every state but
DEAD leads to an accepting one; and a token is admitted, wherever steps from the start lead, exactly if it can be
completed, the empty token in DEAD apart. -/
theorem fromGraph_exact {start : Nat} (hg : AutomatonGraph.fromByteStates states start = .ok g)
    (he : RefEngine.fromGraph g = .ok e) :
    (∀ w, e.accepts w = g.accepts w) ∧ (∀ s, e.isDead s = false → ∃ w, e.acceptsFrom s w = true) ∧
      (∀ p t, e.stepBytes e.start p ≠ dead ∨ t ≠ [] →
        ((e.consumeToken (e.stepBytes e.start p) t).isSome ↔
          ∃ u, e.acceptsFrom (e.stepBytes e.start p) (t ++ u) = true) ∧
        e.consumeToken (e.stepBytes e.start p) t ≠ some dead) ∧
      e.consumeToken dead [] = some dead := by
  obtain ⟨_, hlays⟩ := AutomatonGraph.fromByteStates_ok hg
  obtain ⟨haccepts, hlive⟩ := fromGraph_language hlays he
  exact ⟨haccepts, hlive, fun p t hpt => consumeToken_iff_completable hlive (e.stepBytes_lt p) hpt, rfl⟩

/-- **The engine of a list of states accepts what the list does.** -/
theorem byteStates_engine {start : Nat} (h : (AutomatonGraph.fromByteStates states start >>= RefEngine.fromGraph) =
    .ok e) (w : List Byte) :
    e.accepts w = Explore.accepts states start w := by
  obtain ⟨g, hg, he⟩ := bind_ok h
  obtain ⟨_, hlays⟩ := AutomatonGraph.fromByteStates_ok hg
  rw [(fromGraph_language hlays he).1, AutomatonGraph.fromByteStates_accepts hg]

theorem fromGraph_of_data (h : (graphToEngine g).toOption.isSome = true) : ∃ e, RefEngine.fromGraph g = .ok e := by
  unfold RefEngine.fromGraph
  split
  · exact ⟨_, rfl⟩
  · rename_i err herr
    rw [herr] at h
    cases h

/-- The graph of the word of one byte. -/
theorem fromGraph_exact_letter : ∃ g e, AutomatonGraph.fromByteStates [(false, [(0x61, 1)]), (true, [])] 0 = .ok g ∧
    RefEngine.fromGraph g = .ok e ∧ e.accepts [0x61] = true ∧ e.accepts [0x62] = false := by
  have hg : AutomatonGraph.fromByteStates [(false, [(0x61, 1)]), (true, [])] 0 =
      .ok ⟨[⟨0, 1, false⟩, ⟨1, 0, true⟩], [⟨ByteClass.singleton 0x61, 1⟩], 0⟩ := rfl
  obtain ⟨e, he⟩ := fromGraph_of_data (g := ⟨[⟨0, 1, false⟩, ⟨1, 0, true⟩], [⟨ByteClass.singleton 0x61, 1⟩], 0⟩)
    (by decide +kernel)
  obtain ⟨haccepts, _⟩ := fromGraph_exact hg he
  refine ⟨_, e, hg, he, ?_, ?_⟩
  · rw [haccepts]
    decide
  · rw [haccepts]
    decide

/-- In the engine of a graph that accepts nothing the empty token survives in DEAD, which nothing completes. -/
theorem fromGraph_empty_token : ¬ ∀ (states : List ByteState) (start : Nat) (g : AutomatonGraph) (e : RefEngine),
    AutomatonGraph.fromByteStates states start = .ok g → RefEngine.fromGraph g = .ok e → ∀ p t,
      ((e.consumeToken (e.stepBytes e.start p) t).isSome ↔ ∃ u, e.acceptsFrom (e.stepBytes e.start p) (t ++ u) = true) ∧
        e.consumeToken (e.stepBytes e.start p) t ≠ some dead := by
  intro h
  have hg : AutomatonGraph.fromByteStates [(false, [])] 0 = .ok ⟨[⟨0, 0, false⟩], [], 0⟩ := rfl
  obtain ⟨e, he⟩ := fromGraph_of_data (g := ⟨[⟨0, 0, false⟩], [], 0⟩) (by decide +kernel)
  obtain ⟨_, hlays⟩ := AutomatonGraph.fromByteStates_ok hg
  obtain ⟨haccepts, _⟩ := fromGraph_language hlays he
  obtain ⟨u, hu⟩ := (h _ _ _ e hg he [] []).1.1 rfl
  have hnone : AutomatonGraph.accepts ⟨[⟨0, 0, false⟩], [], 0⟩ u = false := by
    cases u <;> rfl
  rw [← haccepts] at hnone
  exact Bool.false_ne_true (hnone.symm.trans hu)

end MaskForge
