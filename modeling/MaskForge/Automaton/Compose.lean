import MaskForge.Automaton.Chain
import MaskForge.Automaton.FromRows
/-!
# Compose — concatenation, union and repetition of engines

Each builds an automaton of copies and determinizes it.  A concatenation links every copy to the next, a union links
none, and a repetition links as many copies of one engine as its bounds ask for, the last of them to itself where there
is no upper bound.
-/
namespace MaskForge

/-- How many byte transitions an engine's class transitions stand for. -/
def RefEngine.rawByteTransitionCount (e : RefEngine) : Option Nat :=
  e.edges.foldlM (fun total edge => e.classTable.members[edge.1]?.map fun bytes => total + bytes.length) 0

def admitEngineCopies (engines : List RefEngine) : Except CompileError Unit :=
  let totals := engines.foldlM (fun (total : Nat × Nat) e =>
    e.rawByteTransitionCount.map fun edges => (total.1 + e.liveCount, total.2 + edges)) (0, 0)
  match totals with
  | none => .error graphLimit
  | some (states, byteEdges) =>
    if maxGraphStates < states ∨ maxGraphEdges < byteEdges then .error graphLimit else .ok ()

/-- Every copy but the last goes on with the next instead of accepting. -/
def concatenateLinks (starts : List Nat) (runs : List (List Nat)) (count : Nat) :
    List (List Nat × (NfaState → NfaState)) :=
  (List.range (count - 1)).map fun index => (runs[index]?.getD [], fun state =>
    { state with epsilon := state.epsilon ++ starts[index + 1]?.toList, accepting := false })

def concatenate (engines : List RefEngine) : Except CompileError AutomatonGraph :=
  if engines.isEmpty then AutomatonGraph.fromByteStates [(true, [])] 0
  else if engines.any fun e => decide (e.start = dead) then AutomatonGraph.fromByteStates [(false, [])] 0
  else do
    admitEngineCopies engines
    let (states, starts, runs) ← appendEngines [] engines
    let states ← linkRuns (concatenateLinks starts runs engines.length) states
    ByteNfa.determinize ⟨states, starts.headD 0⟩

/-- The start in front gets an empty step to every copy; engines that accept nothing are passed over. -/
def unionStates : List NfaState → List RefEngine → Except CompileError (List NfaState)
  | states, [] => .ok states
  | states, e :: engines =>
    if e.start = dead then unionStates states engines
    else do
      let (states, start, _) ← appendEngine states e
      unionStates (states.modify 0 fun hub => { hub with epsilon := hub.epsilon ++ [start] }) engines

def union (engines : List RefEngine) : Except CompileError AutomatonGraph :=
  if engines.isEmpty then AutomatonGraph.fromByteStates [(false, [])] 0
  else do
    admitEngineCopies engines
    let states ← unionStates [⟨[], [], false⟩] engines
    ByteNfa.determinize ⟨states, 0⟩

/-- A copy accepts once enough are completed and goes on with the next; without an upper bound the last goes on
with itself. -/
def repeatLinks (starts : List Nat) (runs : List (List Nat)) (min : Nat) (max : Option Nat) :
    List (List Nat × (NfaState → NfaState)) :=
  (List.range runs.length).map fun index =>
    let next := if index + 1 < starts.length then starts[index + 1]? else if max.isNone then starts.getLast? else none
    (runs[index]?.getD [], fun state =>
      { state with accepting := decide (min ≤ index + 1), epsilon := state.epsilon ++ next.toList })

/-- How many copies a repetition takes. -/
def repeatCopies (min : Nat) (max : Option Nat) : Nat := Nat.max (max.getD (Nat.min (min + 1) (u32Size - 1))) 1

/-- `repeat`. -/
def repeatEngine (e : RefEngine) (min : Nat) (max : Option Nat) : Except CompileError AutomatonGraph :=
  if max.any (decide <| · < min) then .error (graphError "repeat maximum is below minimum")
  else if max = some 0 then AutomatonGraph.fromByteStates [(true, [])] 0
  else if e.start = dead then AutomatonGraph.fromByteStates [(decide (min = 0), [])] 0
  else do
    let engines := List.replicate (repeatCopies min max) e
    admitEngineCopies engines
    let (states, starts, runs) ← appendEngines [⟨[], [], decide (min = 0)⟩] engines
    let states := states.modify 0 fun hub => { hub with epsilon := hub.epsilon ++ starts[0]?.toList }
    let states ← linkRuns (repeatLinks starts runs min max) states
    ByteNfa.determinize ⟨states, 0⟩

/-- A graph of one state without edges accepts the empty word at most. -/
theorem accepts_single {accepting : Bool} {g : AutomatonGraph}
    (h : AutomatonGraph.fromByteStates [(accepting, [])] 0 = .ok g)
    (w : List Byte) : g.accepts w = true ↔ w = [] ∧ accepting = true := by
  rw [AutomatonGraph.fromByteStates_accepts h]
  cases w with
  | nil => simp [Explore.accepts]
  | cons b w => simp [Explore.accepts]

theorem startsOf_getElem? {hub : Nat} {engines : List RefEngine} {i : Nat} (hi : i < engines.length) :
    ((List.range engines.length).map (entryOf hub engines))[i]? = some (entryOf hub engines i) := by
  rw [List.getElem?_map, List.getElem?_range hi, Option.map_some]

/-- **Linked copies**: the states after the links are drawn, from what each link does. -/
theorem linkRuns_states {hub : Nat} {engines : List RefEngine} {f : Nat → NfaState → NfaState} {count : Nat}
    {before out : List NfaState}
    (hbefore : ∀ (i : Nat) (e : RefEngine) (s : Nat), engines[i]? = some e → 1 ≤ s → s < e.stateCount →
      before[baseOf hub engines i + (s - 1)]? = some ⟨engineEdges e (baseOf hub engines i) s, [], e.isAccepting s⟩)
    (hcount : count ≤ engines.length)
    (h : linkRuns ((List.range count).map fun index =>
      ((engines.mapIdx fun i e => acceptingRun e (baseOf hub engines i))[index]?.getD [], f index)) before = .ok out) :
    (∀ (i : Nat) (e : RefEngine) (s : Nat), engines[i]? = some e → 1 ≤ s → s < e.stateCount →
      out[baseOf hub engines i + (s - 1)]? = some (if i < count ∧ e.isAccepting s = true
        then f i ⟨engineEdges e (baseOf hub engines i) s, [], e.isAccepting s⟩
        else ⟨engineEdges e (baseOf hub engines i) s, [], e.isAccepting s⟩)) ∧
      ∀ k, k < hub → out[k]? = before[k]? := by
  have hruns : ∀ j : Nat, ((engines.mapIdx fun i e => acceptingRun e (baseOf hub engines i))[j]?.getD []).Nodup ∧
      ∀ k ∈ (engines.mapIdx fun i e => acceptingRun e (baseOf hub engines i))[j]?.getD [], hub ≤ k := by
    intro j
    rw [List.getElem?_mapIdx]
    cases engines[j]? with
    | none => exact ⟨List.nodup_nil, fun _ h => absurd h List.not_mem_nil⟩
    | some e =>
      refine ⟨nodup_acceptingRun _ _, fun k hk => ?_⟩
      obtain ⟨s, _, _, _, rfl⟩ := mem_acceptingRun.1 hk
      exact Nat.le_trans (hub_le_baseOf hub engines j) (Nat.le_add_right _ _)
  have hnodup : ∀ r ∈ (List.range count).map (fun index =>
      ((engines.mapIdx fun i e => acceptingRun e (baseOf hub engines i))[index]?.getD [], f index)), r.1.Nodup := by
    intro r hr
    obtain ⟨j, _, rfl⟩ := List.mem_map.1 hr
    exact (hruns j).1
  refine ⟨fun i e s hi h1 hs => ?_, fun k hk => ?_⟩
  · rw [linkRuns_ok hnodup h, hbefore i e s hi h1 hs, Option.map_some, List.foldl_map]
    exact congrArg some (foldl_links hi h1 hs _ count hcount)
  · -- the links change no state before the copies
    have hsame : ∀ (l : List (List Nat × (NfaState → NfaState))) (state : NfaState), (∀ r ∈ l, k ∉ r.1) →
        l.foldl (fun state r => if k ∈ r.1 then r.2 state else state) state = state := by
      intro l
      induction l with
      | nil => exact fun _ _ => rfl
      | cons r l ih =>
        intro state hl
        rw [List.foldl_cons, if_neg (hl r List.mem_cons_self), ih state fun r hr => hl r (List.mem_cons_of_mem _ hr)]
    have hnone : ∀ r ∈ (List.range count).map (fun index =>
        ((engines.mapIdx fun i e => acceptingRun e (baseOf hub engines i))[index]?.getD [], f index)), k ∉ r.1 := by
      intro r hr hmem
      obtain ⟨j, _, rfl⟩ := List.mem_map.1 hr
      exact Nat.lt_irrefl _ (Nat.lt_of_lt_of_le hk ((hruns j).2 k hmem))
    rw [linkRuns_ok hnodup h]
    cases before[k]? with
    | none => rfl
    | some state => exact congrArg some (hsame _ state hnone)

/-! ### Concatenation -/

theorem forall₂_snoc {α β : Type} {R : α → β → Prop} {a : α} :
    ∀ {l : List α} {ws : List β}, List.Forall₂ R (l ++ [a]) ws →
    ∃ ws' b, List.Forall₂ R l ws' ∧ R a b ∧ ws = ws' ++ [b]
  | [], _, .cons h .nil => ⟨[], _, .nil, h, rfl⟩
  | _ :: _, _, .cons hx h => by
    obtain ⟨ws', b, hws, hb, rfl⟩ := forall₂_snoc h
    exact ⟨_ :: ws', b, .cons hx hws, hb, rfl⟩

/-- A list ends in its last element. -/
theorem take_snoc {α : Type} {l : List α} {i : Nat} {a : α} (hi : l[i]? = some a) (hlast : l.length ≤ i + 1) :
    l = l.take i ++ [a] := by
  have hall := List.take_of_length_le hlast
  rw [List.take_add_one, hi] at hall
  exact hall.symm

theorem concatenate_entry {engines : List RefEngine} {i : Nat} {v : List Byte} (hi : i < engines.length) :
    Entry engines [0] (fun i => if i + 1 < engines.length then [i + 1] else []) i v ↔
      ∃ ws, List.Forall₂ (fun (e : RefEngine) u => e.accepts u = true) (engines.take i) ws ∧ ws.flatten = v := by
  constructor
  · intro h
    induction h with
    | init h =>
      rw [List.mem_singleton.1 h]
      exact ⟨[], .nil, rfl⟩
    | @next i j e v u _ hget hu hj ih =>
      split at hj
      · rw [List.mem_singleton.1 hj]
        obtain ⟨ws, hws, rfl⟩ := ih (List.getElem?_eq_some_iff.1 hget).1
        refine ⟨ws ++ [u], ?_, by simp⟩
        rw [List.take_add_one, hget]
        exact List.rel_append hws (.cons hu .nil)
      · cases hj
  · rintro ⟨ws, hws, rfl⟩
    induction i generalizing ws with
    | zero =>
      cases hws
      exact .init List.mem_cons_self
    | succ i ih =>
      have hget := List.getElem?_eq_getElem (Nat.lt_of_succ_lt hi)
      rw [List.take_add_one, hget] at hws
      obtain ⟨ws', u, hinit, hu, rfl⟩ := forall₂_snoc hws
      rw [List.flatten_append, List.flatten_cons, List.flatten_nil, List.append_nil]
      exact .next (ih (Nat.lt_of_succ_lt hi) _ hinit) hget hu (by rw [if_pos hi]; exact List.mem_cons_self)

/-- **Concatenation is exact**: its words are those cut into a word of each engine in turn. -/
theorem concatenate_exact {engines : List RefEngine} {g : AutomatonGraph} (h : concatenate engines = .ok g)
    (w : List Byte) :
    g.accepts w = true ↔ ∃ ws, List.Forall₂ (fun (e : RefEngine) u => e.accepts u = true) engines ws ∧
    ws.flatten = w := by
  unfold concatenate at h
  split at h
  · rename_i hempty
    rw [List.isEmpty_iff.1 hempty, accepts_single h]
    constructor
    · rintro ⟨rfl, _⟩
      exact ⟨[], .nil, rfl⟩
    · rintro ⟨ws, hws, rfl⟩
      cases hws
      exact ⟨rfl, rfl⟩
  · rename_i hne
    split at h
    · rename_i hdead
      obtain ⟨e, he, hstart⟩ := List.any_eq_true.1 hdead
      rw [decide_eq_true_eq] at hstart
      rw [accepts_single h]
      refine ⟨fun h => absurd h.2 Bool.false_ne_true, ?_⟩
      rintro ⟨ws, hws, rfl⟩
      obtain ⟨i, hi⟩ := List.mem_iff_getElem?.1 he
      obtain ⟨hlen, hall⟩ := List.forall₂_iff_get.1 hws
      have hlt := (List.getElem?_eq_some_iff.1 hi).1
      have hacc := hall i hlt (hlen ▸ hlt)
      rw [List.get_eq_getElem, (List.getElem?_eq_some_iff.1 hi).2, e.accepts_eq, hstart, e.acceptsFrom_dead] at hacc
      cases hacc
    · rename_i halive
      obtain ⟨_, _, h⟩ := bind_ok h
      obtain ⟨⟨states, starts, runs⟩, happend, h⟩ := bind_ok h
      obtain ⟨hstates, hstarts, hruns⟩ := appendEngines_ok happend
      obtain ⟨out, hlink, h⟩ := bind_ok h
      dsimp only at hstates hstarts hruns hlink h
      have hpos : 0 < engines.length := List.length_pos_iff.2 (by simpa using hne)
      rw [List.nil_append] at hstates
      rw [hruns, hstarts, concatenateLinks] at hlink
      have hbefore : ∀ (i : Nat) (e : RefEngine) (s : Nat), engines[i]? = some e → 1 ≤ s → s < e.stateCount →
          states[baseOf 0 engines i + (s - 1)]? = some ⟨engineEdges e (baseOf 0 engines i) s, [], e.isAccepting s⟩ := by
        intro i e s hi h1 hs
        rw [hstates]
        exact getElem?_blocks 0 hi h1 hs
      obtain ⟨hout, _⟩ := linkRuns_states hbefore (Nat.sub_le _ _) hlink
      have hchain : Chain ⟨out, starts.headD 0⟩ 0 engines (fun i => if i + 1 < engines.length then [i + 1] else [])
          (fun i => decide (engines.length ≤ i + 1)) := by
        refine ⟨fun e he hdead => halive (List.any_eq_true.2 ⟨e, he, decide_eq_true hdead⟩), fun i j hj => ?_,
          fun i e s hi h1 hs => ?_⟩
        · split at hj
          · rename_i hlt
            rw [List.mem_singleton.1 hj]
            exact hlt
          · cases hj
        · dsimp only
          rw [hout i e s hi h1 hs]
          have hlt := (List.getElem?_eq_some_iff.1 hi).1
          by_cases hlast : i + 1 < engines.length
          · by_cases hacc : e.isAccepting s = true
            · rw [if_pos ⟨by omega, hacc⟩, startsOf_getElem? hlast, if_pos hacc, if_pos hlast,
                decide_eq_false (by omega), Bool.and_false]
              rfl
            · rw [if_neg (fun h => hacc h.2), if_neg hacc, Bool.not_eq_true _ |>.mp hacc]
              rfl
          · rw [if_neg (fun h => by omega), if_neg hlast, decide_eq_true (by omega), Bool.and_true]
            simp
      have hstart : starts.headD 0 = entryOf 0 engines 0 := by
        rw [hstarts, List.headD_eq_head?_getD, List.head?_eq_getElem?]
        show (((List.range engines.length).map (entryOf 0 engines))[0]?).getD 0 = _
        rw [startsOf_getElem? hpos]
        rfl
      rw [ByteNfa.determinize_ok h, hchain.accepts_iff (.copy hpos hstart)]
      constructor
      · rintro (⟨_, h⟩ | ⟨i, e, v, u, hi, hentry, hu, hlast, rfl⟩)
        · cases h
        · have hlt := (List.getElem?_eq_some_iff.1 hi).1
          obtain ⟨ws, hws, rfl⟩ := (concatenate_entry hlt).1 hentry
          rw [decide_eq_true_eq] at hlast
          refine ⟨ws ++ [u], ?_, by simp⟩
          rw [take_snoc hi hlast]
          exact List.rel_append hws (.cons hu .nil)
      · rintro ⟨ws, hws, rfl⟩
        have hlt : engines.length - 1 < engines.length := Nat.sub_lt hpos Nat.one_pos
        have hi := List.getElem?_eq_getElem hlt
        rw [take_snoc hi (by omega)] at hws
        obtain ⟨ws', u, hinit, hu, rfl⟩ := forall₂_snoc hws
        exact .inr ⟨_, _, _, u, hi, (concatenate_entry hlt).2 ⟨ws', hinit, rfl⟩, hu, decide_eq_true (by omega), by simp⟩

/-! ### Union -/

/-- The engines that accept something, as far as their starts tell. -/
def aliveEngines (engines : List RefEngine) : List RefEngine := engines.filter fun e => decide (e.start ≠ dead)

theorem unionStates_ok : ∀ {engines : List RefEngine} (hub : NfaState) (rest : List NfaState) {out : List NfaState},
    unionStates (hub :: rest) engines = .ok out → out =
      { hub with epsilon := hub.epsilon ++
          (List.range (aliveEngines engines).length).map (entryOf (rest.length + 1) (aliveEngines engines)) } ::
        (rest ++ blocks (rest.length + 1) (aliveEngines engines))
  | [], hub, rest, out, h => by
    cases h
    simp [aliveEngines, blocks]
  | e :: engines, hub, rest, out, h => by
    rw [unionStates] at h
    by_cases hdead : e.start = dead
    · rw [if_pos hdead] at h
      have hskip : aliveEngines (e :: engines) = aliveEngines engines := by simp [aliveEngines, hdead]
      rw [hskip]
      exact unionStates_ok hub rest h
    · rw [if_neg hdead] at h
      obtain ⟨first, hfirst, h⟩ := bind_ok h
      have hfirst := appendEngine_ok hfirst
      subst hfirst
      have hkeep : aliveEngines (e :: engines) = e :: aliveEngines engines := by simp [aliveEngines, hdead]
      have hrest := unionStates_ok { hub with epsilon := hub.epsilon ++ [rest.length + 1 + (e.start - 1)] }
        (rest ++ engineStates e (rest.length + 1)) h
      have hlen : (rest ++ engineStates e (rest.length + 1)).length + 1 = rest.length + 1 + e.liveCount := by
        rw [List.length_append, length_engineStates]
        omega
      have hentries : (List.range (e :: aliveEngines engines).length).map
        (entryOf (rest.length + 1) (e :: aliveEngines engines)) =
          (rest.length + 1 + (e.start - 1)) ::
            (List.range (aliveEngines engines).length).map
              (entryOf (rest.length + 1 + e.liveCount) (aliveEngines engines)) := by
        rw [List.length_cons, List.range_succ_eq_map, List.map_cons, List.map_map]
        congr 1
        apply List.map_congr_left
        intro i _
        exact entryOf_cons _ _ _ i
      rw [hkeep, hrest, hlen, hentries, blocks, List.append_assoc, List.append_assoc]
      rfl

/-- **Union is exact**: its words are those some engine accepts. -/
theorem union_exact {engines : List RefEngine} {g : AutomatonGraph} (h : union engines = .ok g) (w : List Byte) :
    g.accepts w = true ↔ ∃ e ∈ engines, e.accepts w = true := by
  unfold union at h
  split at h
  · rename_i hempty
    rw [List.isEmpty_iff.1 hempty, accepts_single h]
    simp
  · obtain ⟨_, _, h⟩ := bind_ok h
    obtain ⟨states, hunion, h⟩ := bind_ok h
    have hstates := unionStates_ok _ _ hunion
    rw [List.nil_append, List.nil_append, List.length_nil, Nat.zero_add] at hstates
    have hchain : Chain ⟨states, 0⟩ 1 (aliveEngines engines) (fun _ => []) fun _ => true := by
      refine ⟨fun e he => of_decide_eq_true (List.mem_filter.1 he).2, fun _ _ h => absurd h List.not_mem_nil,
        fun i e s hi h1 hs => ?_⟩
      have hblock := getElem?_blocks 1 hi h1 hs
      have hle := hub_le_baseOf 1 (aliveEngines engines) i
      have hat : baseOf 1 (aliveEngines engines) i + (s - 1) = baseOf 1 (aliveEngines engines) i + (s - 1) - 1 + 1 :=
        by omega
      dsimp only
      rw [hstates, hat, List.getElem?_cons_succ, hblock, List.map_nil, ite_self, Bool.and_true]
    have hbegin : Begins ⟨states, 0⟩ 1 (aliveEngines engines) (List.range (aliveEngines engines).length) false :=
      .hub (fun i hi => List.mem_range.1 hi) (by rw [hstates]; rfl)
    rw [ByteNfa.determinize_ok h, hchain.accepts_iff hbegin]
    constructor
    · rintro (⟨_, h⟩ | ⟨i, e, v, u, hi, hentry, hu, _, rfl⟩)
      · cases h
      · cases hentry with
        | init _ => exact ⟨e, (List.mem_filter.1 (List.mem_of_getElem? hi)).1, hu⟩
        | next _ _ _ hj => cases hj
    · rintro ⟨e, he, hw⟩
      have halive : e.start ≠ dead := by
        intro hdead
        rw [e.accepts_eq, hdead, e.acceptsFrom_dead] at hw
        cases hw
      obtain ⟨i, hi⟩ := List.mem_iff_getElem?.1 (List.mem_filter.2 ⟨he, decide_eq_true halive⟩ : e ∈
        aliveEngines engines)
      exact .inr ⟨i, e, [], w, hi, .init (List.mem_range.2 (List.getElem?_eq_some_iff.1 hi).1), hw, rfl, rfl⟩

/-- **Concatenation and union are exact.** -/
theorem composition_exact (engines : List RefEngine) :
    (∀ g, concatenate engines = .ok g → ∀ w, g.accepts w = true ↔
      ∃ ws, List.Forall₂ (fun (e : RefEngine) u => e.accepts u = true) engines ws ∧ ws.flatten = w) ∧
    ∀ g, union engines = .ok g → ∀ w, g.accepts w = true ↔ ∃ e ∈ engines, e.accepts w = true :=
  ⟨fun _ h => concatenate_exact h, fun _ h => union_exact h⟩

/-- A closure sorted by insertion, which evaluates. -/
theorem epsilonClosure_eq (nfa : ByteNfa) (seeds : List Nat) : nfa.epsilonClosure seeds =
    (do let closure ← nfa.closeFrom (seeds.length + nfa.states.length + 1) 0 seeds
        return (closure.insertionSort (· ≤ ·)).dedup) := by
  simp only [ByteNfa.epsilonClosure, List.mergeSort_eq_insertionSort]

/-- One letter behind another; and one or the other, not both. -/
theorem composition_exact_letters :
    (∃ g, concatenate [byteEngine 0x61, byteEngine 0x62] = .ok g ∧ g.accepts [0x61, 0x62] = true) ∧
    ∃ g, union [byteEngine 0x61, byteEngine 0x62] = .ok g ∧ g.accepts [0x62] = true ∧
      g.accepts [0x61, 0x62] ≠ true := by
  obtain ⟨hconcatenate, hunion⟩ := composition_exact [byteEngine 0x61, byteEngine 0x62]
  constructor
  · obtain ⟨g, h⟩ : ∃ g, concatenate [byteEngine 0x61, byteEngine 0x62] = .ok g := by
      refine exists_of_toOption ?_
      simp only [concatenate, ByteNfa.determinize, ByteNfa.subsets, epsilonClosure_eq]
      decide +kernel
    refine ⟨g, h, (hconcatenate g h _).2 ⟨[[0x61], [0x62]], ?_, rfl⟩⟩
    exact .cons (by decide +kernel) (.cons (by decide +kernel) .nil)
  · obtain ⟨g, h⟩ : ∃ g, union [byteEngine 0x61, byteEngine 0x62] = .ok g := by
      refine exists_of_toOption ?_
      simp only [union, unionStates, ByteNfa.determinize, ByteNfa.subsets, epsilonClosure_eq]
      decide +kernel
    refine ⟨g, h, (hunion g h _).2 ⟨byteEngine 0x62, by simp, by decide +kernel⟩, fun hg => ?_⟩
    obtain ⟨e, he, haccepts⟩ := (hunion g h _).1 hg
    simp only [List.mem_cons, List.not_mem_nil, or_false] at he
    rcases he with rfl | rfl
    · exact absurd haccepts (by decide +kernel)
    · exact absurd haccepts (by decide +kernel)

/-! ### Repetition -/

/-- Where a repetition goes on after a copy. -/
def repeatNext (count : Nat) (max : Option Nat) (i : Nat) : List Nat :=
  if i + 1 < count then [i + 1] else if max.isNone then [count - 1] else []

section
variable {e : RefEngine} {count : Nat} {max : Option Nat}

theorem repeat_entry_sound {i : Nat} {v : List Byte} (hpos : 0 < count)
    (h : Entry (List.replicate count e) [0] (repeatNext count max) i v) :
    i < count ∧ ∃ ws : List (List Byte), (∀ u ∈ ws, e.accepts u = true) ∧ ws.flatten = v ∧
      i ≤ ws.length ∧ (max.isSome = true → ws.length = i) := by
  induction h with
  | init h =>
    rw [List.mem_singleton.1 h]
    exact ⟨hpos, [], fun _ h => absurd h List.not_mem_nil, rfl, Nat.le_refl _, fun _ => rfl⟩
  | @next i j e' v u _ hget hu hj ih =>
    rw [List.getElem?_replicate] at hget
    split at hget
    · cases hget
      obtain ⟨hi, ws, hall, rfl, hle, hsome⟩ := ih
      have hall' : ∀ x ∈ ws ++ [u], e.accepts x = true := by
        intro x hx
        rcases List.mem_append.1 hx with hx | hx
        · exact hall x hx
        · rw [List.mem_singleton.1 hx]
          exact hu
      have hlen : (ws ++ [u]).length = ws.length + 1 := List.length_append
      unfold repeatNext at hj
      split at hj
      · rename_i hlt
        rw [List.mem_singleton.1 hj]
        exact ⟨hlt, ws ++ [u], hall', by simp, by omega, fun h => by rw [hlen, hsome h]⟩
      · split at hj
        · rename_i hnone
          rw [List.mem_singleton.1 hj]
          refine ⟨Nat.sub_lt hpos Nat.one_pos, ws ++ [u], hall', by simp, by omega, fun h => ?_⟩
          rw [Option.isNone_iff_eq_none.1 hnone] at h
          cases h
        · cases hj
    · cases hget

theorem repeat_entry_complete (hpos : 0 < count) {ws : List (List Byte)} (hall : ∀ u ∈ ws, e.accepts u = true)
    (hfew : max.isSome = true → ws.length < count) :
    Entry (List.replicate count e) [0] (repeatNext count max) (Nat.min ws.length (count - 1)) ws.flatten := by
  induction ws using List.reverseRecOn with
  | nil => exact .init (by simp)
  | append_singleton ws u ih =>
    have hlen : (ws ++ [u]).length = ws.length + 1 := List.length_append
    have hbefore := ih (fun x hx => hall x (List.mem_append_left _ hx)) fun h => by
      have := hfew h
      omega
    have hlt : Nat.min ws.length (count - 1) < count :=
      Nat.lt_of_le_of_lt (Nat.min_le_right _ _) (Nat.sub_lt hpos Nat.one_pos)
    have hget : (List.replicate count e)[Nat.min ws.length (count - 1)]? = some e := by
      rw [List.getElem?_replicate, if_pos hlt]
    rw [List.flatten_append, List.flatten_cons, List.flatten_nil, List.append_nil, hlen]
    refine .next hbefore hget (hall u (List.mem_append_right _ List.mem_cons_self)) ?_
    unfold repeatNext
    have hmin : Nat.min ws.length (count - 1) = min ws.length (count - 1) := rfl
    have hmin' : Nat.min (ws.length + 1) (count - 1) = min (ws.length + 1) (count - 1) := rfl
    rw [hmin, hmin']
    by_cases hmore : min ws.length (count - 1) + 1 < count
    · rw [if_pos hmore, List.mem_singleton]
      omega
    · cases max with
      | none =>
        rw [if_neg hmore, if_pos Option.isNone_none, List.mem_singleton]
        omega
      | some m =>
        have := hfew rfl
        omega

end

/-- **Bounded repetition is exact**: its words are those cut into as many words of the engine as the bounds allow. -/
theorem repeat_exact {e : RefEngine} {min : Nat} {max : Option Nat} {g : AutomatonGraph} (hmin : min < u32Size)
    (h : repeatEngine e min max = .ok g) (w : List Byte) : g.accepts w = true ↔
      ∃ ws : List (List Byte), (∀ u ∈ ws, e.accepts u = true) ∧ ws.flatten = w ∧ min ≤ ws.length ∧
        ∀ m, max = some m → ws.length ≤ m := by
  unfold repeatEngine at h
  split at h
  · cases h
  · rename_i hbounds
    have hle : ∀ m, max = some m → min ≤ m := by
      rintro m rfl
      simpa using hbounds
    split at h
    · rename_i hzero
      rw [accepts_single h]
      constructor
      · rintro ⟨rfl, _⟩
        refine ⟨[], fun _ h => absurd h List.not_mem_nil, rfl, ?_, fun _ _ => Nat.zero_le _⟩
        exact hle 0 hzero
      · rintro ⟨ws, _, rfl, _, hmax⟩
        have hnil := hmax 0 hzero
        rw [List.length_eq_zero_iff.1 (Nat.le_zero.1 hnil)]
        exact ⟨rfl, rfl⟩
    · rename_i hzero
      split at h
      · rename_i hdead
        rw [accepts_single h, decide_eq_true_eq]
        constructor
        · rintro ⟨rfl, hmin⟩
          exact ⟨[], fun _ h => absurd h List.not_mem_nil, rfl, Nat.le_of_eq hmin, fun _ _ => Nat.zero_le _⟩
        · rintro ⟨ws, hall, rfl, hlen, _⟩
          cases ws with
          | nil => exact ⟨rfl, Nat.le_zero.1 hlen⟩
          | cons u ws =>
            have hu := hall u List.mem_cons_self
            rw [e.accepts_eq, hdead, e.acceptsFrom_dead] at hu
            cases hu
      · rename_i halive
        obtain ⟨_, _, h⟩ := bind_ok h
        obtain ⟨⟨states, starts, runs⟩, happend, h⟩ := bind_ok h
        obtain ⟨hstates, hstarts, hruns⟩ := appendEngines_ok happend
        obtain ⟨out, hlink, h⟩ := bind_ok h
        dsimp only at hstates hstarts hruns hlink h
        have hpos : 0 < repeatCopies min max := Nat.lt_of_lt_of_le Nat.one_pos (Nat.le_max_right _ _)
        have hcopies : min ≤ repeatCopies min max ∧ ∀ m, max = some m → repeatCopies min max = m := by
          constructor
          · refine Nat.le_trans ?_ (Nat.le_max_left _ _)
            cases max with
            | none => exact Nat.le_min.2 ⟨Nat.le_succ _, by omega⟩
            | some m => exact hle m rfl
          · rintro m rfl
            have hm : m ≠ 0 := fun h => hzero (congrArg some h)
            exact Nat.max_eq_left (Nat.pos_of_ne_zero hm)
        generalize repeatCopies min max = count at hpos hcopies hstates hstarts hruns hlink
        have hlen : (List.replicate count e).length = count := List.length_replicate
        have hget : ∀ {i : Nat} {e' : RefEngine}, (List.replicate count e)[i]? = some e' → i < count ∧ e' = e := by
          intro i e' h
          rw [List.getElem?_replicate] at h
          split at h
          · rename_i hi
            cases h
            exact ⟨hi, rfl⟩
          · cases h
        rw [hlen] at hstarts
        rw [List.length_singleton] at hstates hstarts hruns
        have hstart : ∀ {i : Nat}, i < count → starts[i]? = some (entryOf 1 (List.replicate count e) i) := by
          intro i hi
          rw [hstarts, List.getElem?_map, List.getElem?_range hi, Option.map_some]
        have hstartsLen : starts.length = count := by rw [hstarts, List.length_map, List.length_range]
        have hbefore : ∀ (i : Nat) (e' : RefEngine) (s : Nat), (List.replicate count e)[i]? = some e' → 1 ≤ s →
          s < e'.stateCount →
            (states.modify 0 fun hub => { hub with epsilon := hub.epsilon ++ starts[0]?.toList })[baseOf 1
              (List.replicate count e) i + (s - 1)]? =
              some ⟨engineEdges e' (baseOf 1 (List.replicate count e) i) s, [], e'.isAccepting s⟩ := by
          intro i e' s hi h1 hs
          have hblock := getElem?_blocks 1 hi h1 hs
          have hpast := hub_le_baseOf 1 (List.replicate count e) i
          rw [List.getElem?_modify_ne _ _ (by omega), hstates,
            List.getElem?_append_right (by rw [List.length_singleton]; omega)]
          exact hblock
        rw [hruns, repeatLinks] at hlink
        obtain ⟨hout, hfront⟩ := linkRuns_states (f := fun index state => { state with
          accepting := decide (min ≤ index + 1)
          epsilon := state.epsilon ++ (if index + 1 < starts.length then starts[index + 1]? else if max.isNone
            then starts.getLast? else none).toList })
          hbefore (Nat.le_of_eq List.length_mapIdx) hlink
        rw [List.length_mapIdx, hlen] at hout
        have hnext : ∀ i, i < count → (if i + 1 < starts.length then starts[i + 1]? else if max.isNone
          then starts.getLast? else none).toList =
            (repeatNext count max i).map (entryOf 1 (List.replicate count e)) := by
          intro i hi
          rw [hstartsLen, repeatNext]
          by_cases hmore : i + 1 < count
          · rw [if_pos hmore, if_pos hmore, hstart hmore]
            rfl
          · rw [if_neg hmore, if_neg hmore]
            by_cases hnone : max.isNone = true
            · rw [if_pos hnone, if_pos hnone, List.getLast?_eq_getElem?, hstartsLen, hstart (by omega)]
              rfl
            · rw [if_neg hnone, if_neg hnone]
              rfl
        have hchain : Chain ⟨out, 0⟩ 1 (List.replicate count e) (repeatNext count max) fun i =>
          decide (min ≤ i + 1) := by
          refine ⟨fun e' he' => (List.eq_of_mem_replicate he') ▸ halive, fun i j hj => ?_, fun i e' s hi h1 hs => ?_⟩
          · rw [hlen]
            unfold repeatNext at hj
            split at hj
            · rename_i hmore
              rw [List.mem_singleton.1 hj]
              exact hmore
            · split at hj
              · rw [List.mem_singleton.1 hj]
                exact Nat.sub_lt hpos Nat.one_pos
              · cases hj
          · dsimp only
            rw [hout i e' s hi h1 hs]
            by_cases hacc : e'.isAccepting s = true
            · rw [if_pos ⟨(hget hi).1, hacc⟩, if_pos hacc, hacc, Bool.true_and, List.nil_append, hnext i (hget hi).1]
            · rw [if_neg (fun h => hacc h.2), if_neg hacc, Bool.not_eq_true _ |>.mp hacc, Bool.false_and]
        have hbegin : Begins ⟨out, 0⟩ 1 (List.replicate count e) [0] (decide (min = 0)) := by
          refine .hub (fun i hi => by rw [List.mem_singleton.1 hi, hlen]; exact hpos) ?_
          dsimp only
          rw [hfront 0 Nat.one_pos, hstates, hstart hpos]
          rfl
        rw [ByteNfa.determinize_ok h, hchain.accepts_iff hbegin]
        constructor
        · rintro (⟨rfl, h0⟩ | ⟨i, e', v, u, hi, hentry, hu, hlast, rfl⟩)
          · exact ⟨[], fun _ h => absurd h List.not_mem_nil, rfl, Nat.le_of_eq (of_decide_eq_true h0), fun _ _ =>
              Nat.zero_le _⟩
          · obtain ⟨hicount, rfl⟩ := hget hi
            obtain ⟨_, ws, hall, rfl, hle', hsome⟩ := repeat_entry_sound hpos hentry
            rw [decide_eq_true_eq] at hlast
            have hlenWs : (ws ++ [u]).length = ws.length + 1 := List.length_append
            refine ⟨ws ++ [u], fun x hx => ?_, by simp, by omega, fun m hm => ?_⟩
            · rcases List.mem_append.1 hx with hx | hx
              · exact hall x hx
              · rw [List.mem_singleton.1 hx]
                exact hu
            · rw [hlenWs, hsome (by rw [hm]; rfl), ← hcopies.2 m hm]
              exact hicount
        · rintro ⟨ws, hall, rfl, hlenWs, hmax⟩
          rcases List.eq_nil_or_concat ws with rfl | ⟨ws, u, rfl⟩
          · exact .inl ⟨rfl, decide_eq_true (Nat.le_zero.1 hlenWs)⟩
          · rw [List.concat_eq_append] at *
            rw [List.length_append, List.length_singleton] at hlenWs
            have hfew : max.isSome = true → ws.length < count := by
              intro hsome
              obtain ⟨m, hm⟩ := Option.isSome_iff_exists.1 hsome
              have hle' := hmax m hm
              rw [List.length_append, List.length_singleton] at hle'
              rw [hcopies.2 m hm]
              exact hle'
            have hentry := repeat_entry_complete hpos (fun x hx => hall x (List.mem_append_left _ hx)) hfew
            have hmin' : Nat.min ws.length (count - 1) = Min.min ws.length (count - 1) := rfl
            refine .inr ⟨_, e, ws.flatten, u, ?_, hentry, hall u (List.mem_append_right _ List.mem_cons_self),
              ?_, by simp⟩
            · rw [List.getElem?_replicate, if_pos]
              rw [hmin']
              omega
            · rw [decide_eq_true_eq, hmin']
              have := hcopies.1
              omega

/-- Two or three times one byte. -/
theorem repeat_exact_letter :
    ∃ g, repeatEngine (byteEngine 0x61) 2 (some 3) = .ok g ∧ g.accepts [0x61, 0x61, 0x61] = true := by
  obtain ⟨g, h⟩ : ∃ g, repeatEngine (byteEngine 0x61) 2 (some 3) = .ok g := by
    refine exists_of_toOption ?_
    simp only [repeatEngine, ByteNfa.determinize, ByteNfa.subsets, epsilonClosure_eq]
    decide +kernel
  refine ⟨g, h, (repeat_exact (by decide) h _).2 ⟨[[0x61], [0x61], [0x61]], by
    decide +kernel, rfl, by decide, fun m hm => ?_⟩⟩
  cases hm
  exact Nat.le_refl _

end MaskForge
