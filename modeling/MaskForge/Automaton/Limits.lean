import MaskForge.Automaton.MultipleOf
import MaskForge.Automaton.Shuffle
/-!
# Limits — what the builders of automata fail with

A builder hands deterministic rows on, with every edge in range, so that nothing it is built from finds its input
malformed: it fails for want of room only.  What its caller has to see to is that a product has a branch, that a
repetition's bounds are in order and that a modulus is not zero.
-/
namespace MaskForge

open RefEngine (limitErr)

/-- The errors that stand for a cap. -/
def resourceLimits : List CompileError := [graphLimit, limitErr, productLimit, shuffleLimit, MultipleOf.limit]

theorem graphLimit_mem : graphLimit ∈ resourceLimits := List.mem_cons_self

/-! ### Loops -/

section
variable {ε α β : Type} {F : ε → Prop}

/-- A loop fails as one of its turns does. -/
theorem foldlM_error {f : β → α → Except ε β} (hf : ∀ b a err, f b a = .error err → F err) :
    ∀ {l : List α} {b : β} {err : ε}, l.foldlM f b = .error err → F err
  | [], _, _, h => by cases h
  | a :: l, b, err, h => by
    rw [List.foldlM_cons] at h
    rcases bind_error h with h | ⟨_, -, h⟩
    · exact hf _ _ _ h
    · exact foldlM_error hf h

theorem mapM_error {f : α → Except ε β} (hf : ∀ a err, f a = .error err → F err) :
    ∀ {l : List α} {err : ε}, l.mapM f = .error err → F err
  | [], _, h => by cases h
  | a :: l, err, h => by
    rw [List.mapM_cons] at h
    rcases bind_error h with h | ⟨_, -, h⟩
    · exact hf _ _ h
    rcases bind_error h with h | ⟨_, -, h⟩
    · exact mapM_error hf h
    · cases h

end

/-! ### Engines from graphs -/

theorem dropEdge_error {s : Strip} {source : Nat} {err : CompileError} (h : dropEdge s source = .error err) :
    err = limitErr := by
  unfold dropEdge at h
  split at h
  · cases h
  · exact (Except.error.inj h).symm

theorem stripAll_error {predecessors : Nat → List Nat} {err : CompileError} : ∀ {fuel : Nat} {s : Strip},
    stripAll predecessors fuel s = .error err → err = limitErr
  | 0, _, h => by cases h
  | fuel + 1, s, h => by
    rw [stripAll] at h
    split at h
    · cases h
    · rcases bind_error h with h | ⟨_, -, h⟩
      · exact foldlM_error (fun _ _ _ => dropEdge_error) h
      · exact stripAll_error h

theorem residualCardinalities_error {rowOffsets : List Nat} {edges : List (Nat × Nat)} {accepting : List Bool}
    {members : List (List Byte)} {err : CompileError} (h : residualCardinalities rowOffsets edges accepting members =
      .error err) :
    err = limitErr := by
  unfold residualCardinalities at h
  rcases bind_error h with h | ⟨_, -, h⟩
  · exact stripAll_error h
  · cases h

theorem reversePairs_error {g : AutomatonGraph} {err : CompileError} : ∀ {rows : List GraphState} {source : Nat},
    reversePairs g source rows = .error err → err = limitErr
  | [], _, h => by cases h
  | row :: rows, source, h => by
    rw [reversePairs] at h
    split at h
    · exact (Except.error.inj h).symm
    · rcases bind_error h with h | ⟨_, -, h⟩
      · exact reversePairs_error h
      · cases h

theorem graphLiveStates_error {g : AutomatonGraph} {err : CompileError} (h : graphLiveStates g = .error err) :
    err ∈ resourceLimits := by
  unfold graphLiveStates at h
  dsimp only at h
  split at h
  · cases h
    decide
  · rcases bind_error h with h | ⟨_, -, h⟩
    · rw [reversePairs_error h]
      decide
    · cases h

theorem pushRows_error {representatives : List Byte} {err : CompileError} :
    ∀ {rows : List (Byte → Nat)} {rowOffsets : List Nat}
    {edges : List (Nat × Nat)} {live : List (BitVec 256)}, pushRows representatives rows rowOffsets edges live =
    .error err → err = limitErr
  | [], _, _, _, h => by
    rw [pushRows] at h
    rcases bind_error h with h | ⟨_, -, h⟩
    · exact checkedU32_error h
    · cases h
  | row :: rows, _, _, _, h => by
    rw [pushRows] at h
    rcases bind_error h with h | ⟨_, -, h⟩
    · exact checkedU32_error h
    · exact pushRows_error h

theorem graphToEngine_error {g : AutomatonGraph} {err : CompileError} (h : graphToEngine g = .error err) :
    err ∈ resourceLimits := by
  unfold graphToEngine at h
  split at h
  · cases h
    decide
  rcases bind_error h with h | ⟨live, -, h⟩
  · exact graphLiveStates_error h
  dsimp only at h
  split at h
  · cases h
    decide
  unfold materializeGraphRows at h
  rcases bind_error h with h | ⟨_, -, h⟩
  · rw [pushRows_error h]
    decide
  rcases bind_error h with h | ⟨_, -, h⟩
  · rw [residualCardinalities_error h]
    decide
  · cases h

/-- **A graph is materialized, or there is no room.** -/
theorem fromGraph_error {g : AutomatonGraph} {err : CompileError} (h : RefEngine.fromGraph g = .error err) :
    err ∈ resourceLimits := by
  unfold RefEngine.fromGraph at h
  split at h
  · cases h
  · rename_i e he
    cases h
    exact graphToEngine_error he

/-- A graph that is built within the limits, materialized. -/
theorem materialized_error {x : Except CompileError AutomatonGraph} {err : CompileError}
    (h : (x >>= RefEngine.fromGraph) = .error err)
    (hx : ∀ err, x = .error err → err ∈ resourceLimits) : err ∈ resourceLimits := by
  rcases bind_error h with h | ⟨g, -, h⟩
  · exact hx err h
  · exact fromGraph_error h

/-! ### Explored graphs -/

/-- **Rows of an exploration make a graph, or there is no room.** -/
theorem explored_error {K : Type} [DecidableEq K] {m : Explore.Machine K Byte CompileError} {cap fuel id : Nat}
    {start : K}
    {s : Explore.State K Byte} {err : CompileError} (hcap : Explore.Caps m cap) (hpos : 1 ≤ cap) (hfuel : cap ≤ fuel)
    (hs : Explore.explore m allBytes fuel start = .ok (id, s))
    (h : AutomatonGraph.fromByteStates s.rows id = .error err) :
    err = graphLimit := by
  obtain ⟨rfl, hinv, hall⟩ := Explore.explore_ok hcap hpos nodup_allBytes hfuel hs
  refine AutomatonGraph.fromByteStates_error h ?_ (hinv.targets hall nodup_allBytes (Explore.explore_letters hs))
    (Explore.explore_tidy nodup_allBytes hs)
  rw [hall]
  exact (List.getElem?_eq_some_iff.1 hinv.first).1

namespace ByteNfa

variable {nfa : ByteNfa} {err : CompileError}

theorem closeFrom_error : ∀ {fuel cursor : Nat} {closure : List Nat}, nfa.closeFrom fuel cursor closure = .error err →
    err = graphLimit
  | 0, _, _, h => by cases h
  | fuel + 1, cursor, closure, h => by
    rw [closeFrom] at h
    split at h
    · cases h
    split at h
    · exact (Except.error.inj h).symm
    · exact closeFrom_error h

theorem epsilonClosure_error {seeds : List Nat} (h : nfa.epsilonClosure seeds = .error err) : err = graphLimit := by
  unfold epsilonClosure at h
  rcases bind_error h with h | ⟨_, -, h⟩
  · exact closeFrom_error h
  · cases h

theorem rawTargets_error {b : Byte} : ∀ {subset : List Nat}, nfa.rawTargets b subset = .error err → err = graphLimit
  | [], h => by cases h
  | s :: subset, h => by
    rw [rawTargets] at h
    split at h
    · exact (Except.error.inj h).symm
    · rcases bind_error h with h | ⟨_, -, h⟩
      · exact rawTargets_error h
      · cases h

theorem subsets_fails : nfa.subsets.Fails (· = graphLimit) where
  next subset b err h := by
    dsimp only [subsets] at h
    rcases bind_error h with h | ⟨raw, -, h⟩
    · exact rawTargets_error h
    split at h
    · cases h
    · rcases bind_error h with h | ⟨_, -, h⟩
      · exact epsilonClosure_error h
      · cases h
  room count err h := by
    dsimp only [subsets] at h
    split at h
    · exact (Except.error.inj h).symm
    · cases h
  edge _ _ _ h := by cases h
  rowEnd edges err h := by
    dsimp only [subsets] at h
    split at h
    · exact (Except.error.inj h).symm
    · cases h
  lost := rfl

theorem determinize_error (h : nfa.determinize = .error err) : err = graphLimit := by
  unfold determinize at h
  rcases bind_error h with h | ⟨start, -, h⟩
  · exact epsilonClosure_error h
  rcases bind_error h with h | ⟨r, hr, h⟩
  · have hlimit := Explore.explore_error subsets_fails h
    exact hlimit
  · exact explored_error subsets_caps (by decide) (Nat.le_refl _) hr h

end ByteNfa

namespace DenseDfa

variable {σ : Type} {d : DenseDfa σ} {err : CompileError}

def startErr : CompileError := ⟨.malformed, .l3, "anchored start state does not exist"⟩

theorem byClasses_fails (members : List (List Byte)) :
    (d.byClasses members).Fails fun err => err = limitErr ∨ err = quitErr where
  next s c err h := by
    dsimp only [byClasses] at h
    split at h
    · exact .inl (Except.error.inj h).symm
    split at h
    · exact .inr (Except.error.inj h).symm
    · cases h
  room _ _ h := by cases h
  edge _ _ _ h := by cases h
  rowEnd _ _ h := by cases h
  lost := .inl rfl

/-- **A dense DFA is imported**, or there is no room, or it has no start, or it quits on some byte. -/
theorem bfsMaterialize_error [DecidableEq σ] (h : d.bfsMaterialize = .error err) :
    err = limitErr ∨ err = quitErr ∨ err = startErr := by
  unfold bfsMaterialize at h
  split at h
  · cases h
  rename_i e he
  cases h
  unfold importData at he
  split at he
  · exact .inr (.inr (Except.error.inj he).symm)
  split at he
  · exact .inr (.inl (Except.error.inj he).symm)
  rcases bind_error he with he | ⟨r, -, he⟩
  · exact (Explore.explore_error (byClasses_fails _) he).imp_right .inl
  dsimp only at he
  split at he
  · exact .inl (Except.error.inj he).symm
  split at he
  · exact .inl (Except.error.inj he).symm
  split at he
  · exact .inl (Except.error.inj he).symm
  rcases bind_error he with he | ⟨_, -, he⟩
  · exact .inl (residualCardinalities_error he)
  · cases he

end DenseDfa

/-! ### Compositions -/

section
variable {err : CompileError}

theorem emptyGraph_error {accepting : Bool} (h : AutomatonGraph.fromByteStates [(accepting, [])] 0 = .error err) :
    err = graphLimit :=
  AutomatonGraph.fromByteStates_error h Nat.one_pos
    (fun state hstate e he => by
      rw [List.mem_singleton.1 hstate] at he
      cases he)
    fun state hstate => by
      rw [List.mem_singleton.1 hstate]
      exact List.nodup_nil

theorem admitEngineCopies_error {engines : List RefEngine} (h : admitEngineCopies engines = .error err) :
    err = graphLimit := by
  unfold admitEngineCopies at h
  dsimp only at h
  split at h
  · exact (Except.error.inj h).symm
  split at h
  · exact (Except.error.inj h).symm
  · cases h

theorem appendEngine_error {states : List NfaState} {e : RefEngine} (h : appendEngine states e = .error err) :
    err = graphLimit := by
  unfold appendEngine at h
  rcases bind_error h with h | ⟨_, -, h⟩
  · exact checkedU32_error h
  split at h
  · exact (Except.error.inj h).symm
  · cases h

theorem appendEngines_error :
    ∀ {engines : List RefEngine} {states : List NfaState}, appendEngines states engines = .error err → err = graphLimit
  | [], _, h => by cases h
  | e :: engines, states, h => by
    rw [appendEngines] at h
    rcases bind_error h with h | ⟨_, -, h⟩
    · exact appendEngine_error h
    rcases bind_error h with h | ⟨_, -, h⟩
    · exact appendEngines_error h
    · cases h

theorem linkRun_error {f : NfaState → NfaState} :
    ∀ {run : List Nat} {states : List NfaState}, linkRun f run states = .error err → err = graphLimit
  | [], _, h => by cases h
  | id :: run, states, h => by
    rw [linkRun] at h
    split at h
    · exact (Except.error.inj h).symm
    · exact linkRun_error h

theorem linkRuns_error : ∀ {runs : List (List Nat × (NfaState → NfaState))} {states : List NfaState},
    linkRuns runs states = .error err → err = graphLimit
  | [], _, h => by cases h
  | (run, f) :: runs, states, h => by
    rw [linkRuns] at h
    rcases bind_error h with h | ⟨_, -, h⟩
    · exact linkRun_error h
    · exact linkRuns_error h

theorem concatenate_error {engines : List RefEngine} (h : concatenate engines = .error err) : err = graphLimit := by
  unfold concatenate at h
  split at h
  · exact emptyGraph_error h
  split at h
  · exact emptyGraph_error h
  rcases bind_error h with h | ⟨_, -, h⟩
  · exact admitEngineCopies_error h
  rcases bind_error h with h | ⟨_, -, h⟩
  · exact appendEngines_error h
  rcases bind_error h with h | ⟨_, -, h⟩
  · exact linkRuns_error h
  · exact ByteNfa.determinize_error h

theorem unionStates_error :
    ∀ {engines : List RefEngine} {states : List NfaState}, unionStates states engines = .error err → err = graphLimit
  | [], _, h => by cases h
  | e :: engines, states, h => by
    rw [unionStates] at h
    split at h
    · exact unionStates_error h
    rcases bind_error h with h | ⟨_, -, h⟩
    · exact appendEngine_error h
    · exact unionStates_error h

theorem union_error {engines : List RefEngine} (h : union engines = .error err) : err = graphLimit := by
  unfold union at h
  split at h
  · exact emptyGraph_error h
  rcases bind_error h with h | ⟨_, -, h⟩
  · exact admitEngineCopies_error h
  rcases bind_error h with h | ⟨_, -, h⟩
  · exact unionStates_error h
  · exact ByteNfa.determinize_error h

/-- A repetition whose bounds are in order. -/
theorem repeatEngine_error {e : RefEngine} {min : Nat} {max : Option Nat} (hbounds : ∀ m, max = some m → min ≤ m)
    (h : repeatEngine e min max = .error err) : err = graphLimit := by
  unfold repeatEngine at h
  split at h
  · rename_i hlt
    obtain ⟨m, rfl, hm⟩ := (Option.any_eq_true _ _).1 hlt
    exact absurd (hbounds m rfl) (Nat.not_le.2 (of_decide_eq_true hm))
  split at h
  · exact emptyGraph_error h
  split at h
  · exact emptyGraph_error h
  rcases bind_error h with h | ⟨_, -, h⟩
  · exact admitEngineCopies_error h
  rcases bind_error h with h | ⟨_, -, h⟩
  · exact appendEngines_error h
  rcases bind_error h with h | ⟨_, -, h⟩
  · exact linkRuns_error h
  · exact ByteNfa.determinize_error h

end

namespace ProductAutomaton

variable {branches : List RefEngine} {c : Combinator} {maxStates maxEdges : Nat} {err : CompileError}

theorem tuples_fails : (tuples branches c maxStates maxEdges).Fails (· = productLimit) where
  next _ _ _ h := by cases h
  room count err h := by
    dsimp only [tuples] at h
    cases hcount : checkedU32 productLimit count with
    | error e =>
      rw [hcount] at h
      cases h
      exact checkedU32_error hcount
    | ok n =>
      rw [hcount] at h
      cases h
  edge count edges err h := by
    dsimp only [tuples] at h
    split at h
    · exact (Except.error.inj h).symm
    split at h
    · exact (Except.error.inj h).symm
    · cases h
  rowEnd _ _ h := by cases h
  lost := rfl

/-- What a product's rows are like, if it is built. -/
theorem buildCapped_rows {reject : Bool} {p : ProductAutomaton}
    (h : buildCapped branches c maxStates maxEdges reject = .ok p) :
    p.start < p.states.length ∧ (∀ state ∈ p.states, ∀ e ∈ state.2, e.2 < p.states.length) ∧
      ∀ state ∈ p.states, (state.2.map Prod.fst).Nodup := by
  unfold buildCapped at h
  split at h
  · cases h
  split at h
  · cases h
  split at h
  · cases h
  split at h
  · cases h
  obtain ⟨⟨startId, s⟩, hexplore, h⟩ := bind_ok h
  have htidy := Explore.explore_tidy nodup_allBytes hexplore
  obtain ⟨hlen, -⟩ := Explore.liveRows_spec htidy
  dsimp only at h
  split at h
  · cases h
    refine ⟨Nat.one_pos, fun state hstate e he => ?_, fun state hstate => ?_⟩
    · rw [List.mem_singleton.1 hstate] at he
      cases he
    · rw [List.mem_singleton.1 hstate]
      exact List.nodup_nil
  · rename_i hsome
    cases h
    dsimp only
    refine ⟨?_, Explore.trim_targets hlen, Explore.trim_tidy htidy⟩
    have hpos : 0 < (Explore.trim s.rows (Explore.liveRows s.rows)).length := List.length_pos_iff.2 fun hnil =>
      hsome (List.isEmpty_iff.2 hnil)
    cases hid : (Explore.finalIds 0 (Explore.liveRows s.rows))[startId]?.join with
    | none => exact hpos
    | some m =>
      rw [Option.getD_some, Explore.length_trim hlen, ← Nat.zero_add ((Explore.liveRows s.rows).count true)]
      exact (Explore.finalIds_some hid).2.2

theorem buildCapped_error {reject : Bool} (hne : branches ≠ [])
    (h : buildCapped branches c maxStates maxEdges reject = .error err) :
    err = productLimit := by
  unfold buildCapped at h
  split at h
  · rename_i hempty
    exact absurd (List.isEmpty_iff.1 hempty) hne
  split at h
  · exact (Except.error.inj h).symm
  split at h
  · exact (Except.error.inj h).symm
  split at h
  · exact (Except.error.inj h).symm
  rcases bind_error h with h | ⟨_, -, h⟩
  · have hlimit := Explore.explore_error tuples_fails h
    exact hlimit
  · dsimp only at h
    split at h
    · cases h
    · cases h

/-- **A product of some branches is built, or there is no room.** -/
theorem build_intoEngine_error (hne : branches ≠ []) (h : (build branches c >>= intoEngine) = .error err) :
    err ∈ resourceLimits := by
  rcases bind_error h with h | ⟨p, hp, h⟩
  · rw [buildCapped_error hne h]
    decide
  · obtain ⟨hstart, htargets, htidy⟩ := buildCapped_rows hp
    refine materialized_error h fun err herr => ?_
    rw [AutomatonGraph.fromByteStates_error herr hstart htargets htidy]
    exact graphLimit_mem

end ProductAutomaton

namespace ShuffleAutomaton

variable {fields : List RefEngine} {required : List Bool} {separator : RefEngine} {err : CompileError}

theorem configSets_fails : (configSets fields separator required).Fails (· = shuffleLimit) where
  next _ _ _ h := by cases h
  room count err h := by
    dsimp only [configSets] at h
    cases hcount : checkedU32 shuffleLimit count with
    | error e =>
      rw [hcount] at h
      cases h
      exact checkedU32_error hcount
    | ok n =>
      rw [hcount] at h
      cases h
  edge count edges err h := by
    dsimp only [configSets] at h
    split at h
    · exact (Except.error.inj h).symm
    split at h
    · exact (Except.error.inj h).symm
    · cases h
  rowEnd _ _ h := by cases h
  lost := rfl

/-- **A shuffle of fields with a flag each is built, or there is no room.** -/
theorem build_intoEngine_error (hlen : fields.length = required.length)
    (h : (build fields required separator >>= intoEngine) = .error err) :
    err ∈ resourceLimits := by
  rcases bind_error h with h | ⟨p, hp, h⟩
  · unfold build at h
    rw [if_neg (not_not.2 hlen)] at h
    split at h
    · cases h
      decide
    dsimp only at h
    split at h
    · cases h
      decide
    split at h
    · cases h
      decide
    rcases bind_error h with h | ⟨_, -, h⟩
    · rw [Explore.explore_error configSets_fails h]
      decide
    · cases h
  · refine materialized_error h fun err herr => ?_
    unfold build at hp
    rw [if_neg (not_not.2 hlen)] at hp
    split at hp
    · cases hp
    dsimp only at hp
    split at hp
    · cases hp
    split at hp
    · cases hp
    obtain ⟨r, hr, hp⟩ := bind_ok hp
    cases hp
    rw [explored_error (configSets_caps required) (by decide) (Nat.le_refl _) hr herr]
    exact graphLimit_mem

end ShuffleAutomaton

theorem byteStringSet_error {values : List (List Byte)} {err : CompileError} (h : byteStringSet values = .error err) :
    err = graphLimit := by
  unfold byteStringSet at h
  rcases bind_error h with h | ⟨rows, hrows, h⟩
  · exact LabelTrie.build_error h
  · obtain ⟨lbl, hspells⟩ := LabelTrie.build_spells hrows
    refine AutomatonGraph.fromByteStates_error h hspells.labelled.inhabited (fun row hrow e he => ?_) hspells.tidy
    obtain ⟨i, hi⟩ := List.mem_iff_getElem?.1 hrow
    rw [← LabelTrie.kids_eq hi] at he
    exact (hspells.labelled.edge i (List.getElem?_eq_some_iff.1 hi).1 e he).2.2

namespace MultipleOf

variable {err : CompileError}

theorem checkedU64_error {n : Nat} (h : checkedU64 n = .error err) : err = limit := by
  unfold checkedU64 at h
  split at h
  · cases h
  · exact (Except.error.inj h).symm

theorem digitEdges_nodup (target : Nat → Nat) : ((digitEdges target).map Prod.fst).Nodup := by
  rw [digitEdges, List.map_map]
  show ((List.range 10).map Decimal.digitByte).Nodup
  decide

theorem optionalSignEngine_error (h : optionalSignEngine = .error err) : err ∈ resourceLimits := by
  refine materialized_error h fun err herr => ?_
  rw [AutomatonGraph.fromByteStates_error herr (by decide) (by decide) (by decide)]
  exact graphLimit_mem

theorem digitStarEngine_error (h : digitStarEngine = .error err) : err ∈ resourceLimits := by
  refine materialized_error h fun err herr => ?_
  rw [AutomatonGraph.fromByteStates_error herr (by decide) (by decide) (by decide)]
  exact graphLimit_mem

theorem signedDigitStarEngine_error (h : signedDigitStarEngine = .error err) : err ∈ resourceLimits := by
  unfold signedDigitStarEngine at h
  rcases bind_error h with h | ⟨_, -, h⟩
  · exact optionalSignEngine_error h
  rcases bind_error h with h | ⟨_, -, h⟩
  · exact digitStarEngine_error h
  · exact materialized_error h fun err herr => concatenate_error herr ▸ graphLimit_mem

theorem suffixPartsEngine_error {short padded : List (List Byte)} (h : suffixPartsEngine short padded = .error err) :
    err ∈ resourceLimits := by
  have hset : ∀ values, (byteStringSet values >>= RefEngine.fromGraph) = .error err → err ∈ resourceLimits :=
    fun values h =>
    materialized_error h fun err herr => byteStringSet_error herr ▸ graphLimit_mem
  have hconcat : ∀ engines, (concatenate engines >>= RefEngine.fromGraph) = .error err → err ∈ resourceLimits :=
    fun engines h =>
    materialized_error h fun err herr => concatenate_error herr ▸ graphLimit_mem
  unfold suffixPartsEngine at h
  rcases bind_error h with h | ⟨_, -, h⟩
  · exact hset _ h
  rcases bind_error h with h | ⟨_, -, h⟩
  · exact hset _ h
  rcases bind_error h with h | ⟨_, -, h⟩
  · exact digitStarEngine_error h
  rcases bind_error h with h | ⟨_, -, h⟩
  · exact hconcat _ h
  rcases bind_error h with h | ⟨_, -, h⟩
  · exact materialized_error h fun err herr => union_error herr ▸ graphLimit_mem
  rcases bind_error h with h | ⟨_, -, h⟩
  · exact optionalSignEngine_error h
  · exact hconcat _ h

theorem suffixEngine_error {suffixLen modulus endingCount : Nat}
    (h : suffixEngine suffixLen modulus endingCount = .error err) :
    err ∈ resourceLimits := by
  unfold suffixEngine at h
  split at h
  · exact signedDigitStarEngine_error h
  rcases bind_error h with h | ⟨_, -, h⟩
  · rw [checkedU64_error h]
    decide
  rcases bind_error h with h | ⟨_, -, h⟩
  · rw [mapM_error (F := (· = limit)) (fun _ _ => checkedU64_error) h]
    decide
  · exact suffixPartsEngine_error h

/-- Every edge of a remainder's row leads to a remainder, or from the start to the state behind the sign. -/
theorem remainderDfa_targets {modulus : Nat} (hpos : 0 < modulus) : ∀ state ∈ remainderDfaStates modulus, ∀ e ∈ state.2,
    e.2 < (remainderDfaStates modulus).length := by
  have hlen : (remainderDfaStates modulus).length = modulus + 2 := by
    rw [remainderDfaStates, List.length_map, List.length_range]
  have hdigits : ∀ (value : Nat → Nat), ∀ e ∈ digitEdges fun d => value d % modulus + 2, e.2 < modulus + 2 := by
    intro value e he
    obtain ⟨d, -, rfl⟩ := List.mem_map.1 he
    exact Nat.add_lt_add_right (Nat.mod_lt _ hpos) 2
  intro state hstate e he
  obtain ⟨i, -, rfl⟩ := List.mem_map.1 hstate
  rw [hlen]
  dsimp only at he
  split at he
  · rcases List.mem_append.1 he with he | he
    · split at he
      · rw [List.mem_singleton.1 he]
        exact Nat.lt_add_left modulus Nat.one_lt_two
      · cases he
    · exact hdigits id e he
  · exact hdigits _ e he

theorem remainderDfa_tidy (modulus : Nat) : ∀ state ∈ remainderDfaStates modulus, (state.2.map Prod.fst).Nodup := by
  intro state hstate
  obtain ⟨i, -, rfl⟩ := List.mem_map.1 hstate
  dsimp only
  split
  · rw [List.map_append]
    refine List.Nodup.append ?_ (digitEdges_nodup _) ?_
    · split
      · exact List.nodup_singleton _
      · exact List.nodup_nil
    · intro b hb hdigit
      obtain ⟨e, he, rfl⟩ := List.mem_map.1 hdigit
      obtain ⟨d, hd, rfl⟩ := List.mem_map.1 he
      have hsign : Decimal.digitByte d = 0x2d := by
        split at hb
        · exact List.mem_singleton.1 hb
        · cases hb
      exact isDigit_ne_sign (Decimal.isDigit_digitByte (List.mem_range.1 hd)) hsign
  · exact digitEdges_nodup _

/-- **The multiples of a number have an engine, or there is no room.** -/
theorem multipleOfEngine_error {modulus : Nat} (hpos : 0 < modulus) (h : multipleOfEngine modulus = .error err) :
    err ∈ resourceLimits := by
  unfold multipleOfEngine at h
  rw [if_neg (Nat.ne_of_gt hpos)] at h
  split at h
  · cases h
    decide
  split at h
  · exact signedDigitStarEngine_error h
  split at h
  · refine materialized_error h fun err herr => ?_
    rw [AutomatonGraph.fromByteStates_error herr (by rw [remainderDfaStates, List.length_map, List.length_range]; omega)
      (remainderDfa_targets hpos) (remainderDfa_tidy modulus)]
    exact graphLimit_mem
  split at h
  · exact suffixEngine_error h
  · cases h
    decide

end MultipleOf

end MaskForge
