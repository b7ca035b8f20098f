import MaskForge.Automaton.Nfa
/-!
# Chain — copies of engines in one automaton, linked from accepting states to starts

`append_engine` copies an engine's live states behind the states there are; links are then drawn from the accepting
states of one copy to the starts of others.  A word is accepted if it is cut along the links into words of the copies
(`Chain.accepts_iff`).
-/
namespace MaskForge

/-- A copied state's edges; `base` is where the copy's state 1 stands. -/
def engineEdges (e : RefEngine) (base source : Nat) : List (Byte × Nat) :=
  allBytes.filterMap fun b =>
    if e.step source (e.classOfByte b) = dead then none else some (b, base + (e.step source (e.classOfByte b) - 1))

/-- The states of an engine but DEAD. -/
def RefEngine.liveCount (e : RefEngine) : Nat := e.stateCount - 1

def engineStates (e : RefEngine) (base : Nat) : List NfaState :=
  (List.range' 1 e.liveCount).map fun source => ⟨engineEdges e base source, [], e.isAccepting source⟩

/-- The ids of a copy's accepting states. -/
def acceptingRun (e : RefEngine) (base : Nat) : List Nat :=
  ((List.range' 1 e.liveCount).filter e.isAccepting).map fun source => base + (source - 1)

/-- The states with the copy behind them, the id of its start and those of its accepting states. -/
def appendEngine (states : List NfaState) (e : RefEngine) : Except CompileError (List NfaState × Nat × List Nat) := do
  let base ← checkedU32 graphLimit states.length
  if maxGraphStates < states.length + e.liveCount then .error graphLimit
  else return (states ++ engineStates e base, base + (e.start - 1), acceptingRun e base)

def appendEngines : List NfaState → List RefEngine → Except CompileError (List NfaState × List Nat × List (List Nat))
  | states, [] => .ok (states, [], [])
  | states, e :: engines => do
    let (states, start, run) ← appendEngine states e
    let (states, starts, runs) ← appendEngines states engines
    return (states, start :: starts, run :: runs)

/-- Changes the states of a run. -/
def linkRun (f : NfaState → NfaState) : List Nat → List NfaState → Except CompileError (List NfaState)
  | [], states => .ok states
  | id :: run, states => match states[id]? with
    | none => .error graphLimit
    | some state => linkRun f run (states.set id (f state))

def linkRuns : List (List Nat × (NfaState → NfaState)) → List NfaState → Except CompileError (List NfaState)
  | [], states => .ok states
  | (run, f) :: runs, states => do
    let states ← linkRun f run states
    linkRuns runs states

/-! ### Where the copies stand -/

/-- Where the state 1 of a copy stands, the first copy at `hub`. -/
def baseOf (hub : Nat) (engines : List RefEngine) (i : Nat) : Nat :=
  hub + ((engines.take i).map RefEngine.liveCount).sum

/-- The id of a copy's start. -/
def entryOf (hub : Nat) (engines : List RefEngine) (i : Nat) : Nat :=
  baseOf hub engines i + ((engines[i]?.map fun e => e.start).getD 0 - 1)

theorem baseOf_zero (hub : Nat) (engines : List RefEngine) : baseOf hub engines 0 = hub := rfl

theorem baseOf_cons (hub : Nat) (e : RefEngine) (engines : List RefEngine) (i : Nat) :
    baseOf hub (e :: engines) (i + 1) = baseOf (hub + e.liveCount) engines i := by
  rw [baseOf, baseOf, List.take_succ_cons, List.map_cons, List.sum_cons, Nat.add_assoc]

theorem entryOf_cons (hub : Nat) (e : RefEngine) (engines : List RefEngine) (i : Nat) :
    entryOf hub (e :: engines) (i + 1) = entryOf (hub + e.liveCount) engines i := by
  rw [entryOf, entryOf, baseOf_cons]
  rfl

theorem hub_le_baseOf (hub : Nat) (engines : List RefEngine) (i : Nat) : hub ≤ baseOf hub engines i :=
  Nat.le_add_right _ _

/-- One copy ends where the next begins. -/
theorem baseOf_next :
    ∀ (hub : Nat) {engines : List RefEngine} {i j : Nat} {e : RefEngine}, engines[i]? = some e → i < j →
    baseOf hub engines i + e.liveCount ≤ baseOf hub engines j
  | _, [], _, _, _, h, _ => by cases h
  | hub, x :: engines, 0, j + 1, e, h, _ => by
    cases h
    rw [baseOf_cons]
    exact hub_le_baseOf _ _ _
  | hub, x :: engines, i + 1, j + 1, e, h, hij => by
    rw [baseOf_cons, baseOf_cons]
    exact baseOf_next _ h (Nat.lt_of_succ_lt_succ hij)

theorem length_engineStates (e : RefEngine) (base : Nat) : (engineStates e base).length = e.liveCount := by
  rw [engineStates, List.length_map, List.length_range']

theorem getElem?_engineStates {e : RefEngine} {base s : Nat} (h1 : 1 ≤ s) (hs : s < e.stateCount) :
    (engineStates e base)[s - 1]? = some ⟨engineEdges e base s, [], e.isAccepting s⟩ := by
  have hlt : s - 1 < e.liveCount := by
    unfold RefEngine.liveCount
    omega
  have hone : 1 + 1 * (s - 1) = s := by omega
  rw [engineStates, List.getElem?_map, List.getElem?_range' hlt, Option.map_some, hone]

theorem appendEngine_ok {states : List NfaState} {e : RefEngine} {out : List NfaState × Nat × List Nat}
    (h : appendEngine states e = .ok out) :
    out = (states ++ engineStates e states.length, states.length + (e.start - 1), acceptingRun e states.length) := by
  obtain ⟨base, hbase, h⟩ := bind_ok h
  obtain ⟨rfl, _⟩ := checkedU32_ok hbase
  split at h
  · cases h
  · cases h
    rfl

/-- The copies end to end. -/
def blocks : Nat → List RefEngine → List NfaState
  | _, [] => []
  | base, e :: engines => engineStates e base ++ blocks (base + e.liveCount) engines

theorem getElem?_blocks : ∀ {engines : List RefEngine} (hub : Nat) {i s : Nat} {e : RefEngine}, engines[i]? = some e →
    1 ≤ s → s < e.stateCount →
    (blocks hub engines)[baseOf hub engines i + (s - 1) - hub]? = some ⟨engineEdges e (baseOf hub engines i) s, [],
      e.isAccepting s⟩
  | [], _, _, _, _, h, _, _ => by cases h
  | x :: engines, hub, 0, s, e, h, h1, hs => by
    cases h
    have hlt : s - 1 < (engineStates x hub).length := by
      rw [length_engineStates, RefEngine.liveCount]
      omega
    rw [baseOf_zero, Nat.add_sub_cancel_left, blocks, List.getElem?_append_left hlt, getElem?_engineStates h1 hs]
  | x :: engines, hub, i + 1, s, e, h, h1, hs => by
    have hi : engines[i]? = some e := h
    have ih := getElem?_blocks (hub + x.liveCount) hi h1 hs
    have hle := hub_le_baseOf (hub + x.liveCount) engines i
    rw [baseOf_cons, blocks, List.getElem?_append_right (by rw [length_engineStates]; omega), length_engineStates, ← ih]
    congr 1
    omega

/-- **Appended engines stand where they are said to.** -/
theorem appendEngines_ok :
    ∀ {engines : List RefEngine} {states : List NfaState} {out : List NfaState × List Nat × List (List Nat)},
    appendEngines states engines = .ok out →
    out.1 = states ++ blocks states.length engines ∧
    out.2.1 = (List.range engines.length).map (entryOf states.length engines) ∧
      out.2.2 = engines.mapIdx fun i e => acceptingRun e (baseOf states.length engines i)
  | [], states, out, h => by
    cases h
    exact ⟨(List.append_nil _).symm, rfl, rfl⟩
  | e :: engines, states, out, h => by
    rw [appendEngines] at h
    obtain ⟨first, hfirst, h⟩ := bind_ok h
    have hfirst := appendEngine_ok hfirst
    subst hfirst
    obtain ⟨rest, hrest, h⟩ := bind_ok h
    cases h
    obtain ⟨hstates, hstarts, hruns⟩ := appendEngines_ok hrest
    have hlen : (states ++ engineStates e states.length).length = states.length + e.liveCount := by
      rw [List.length_append, length_engineStates]
    rw [hlen] at hstates hstarts hruns
    refine ⟨?_, ?_, ?_⟩
    · dsimp only
      rw [hstates, List.append_assoc]
      rfl
    · dsimp only
      rw [hstarts, List.length_cons, List.range_succ_eq_map, List.map_cons, List.map_map]
      congr 1
      apply List.map_congr_left
      intro i _
      exact (entryOf_cons _ _ _ i).symm
    · dsimp only
      rw [hruns, List.mapIdx_cons]
      congr 1
      congr 1
      funext i x
      rw [baseOf_cons]

/-! ### Links -/

theorem linkRun_ok {f : NfaState → NfaState} : ∀ {run : List Nat} {states out : List NfaState}, run.Nodup →
    linkRun f run states = .ok out → ∀ k : Nat, out[k]? = states[k]?.map fun state => if k ∈ run then f state else state
  | [], states, out, _, h, k => by
    cases h
    simp
  | id :: run, states, out, hnodup, h, k => by
    rw [linkRun] at h
    split at h
    · cases h
    · rename_i state hstate
      rw [linkRun_ok (List.nodup_cons.1 hnodup).2 h k]
      by_cases hk : id = k
      · subst hk
        rw [List.getElem?_set_self (List.getElem?_eq_some_iff.1 hstate).1, hstate, Option.map_some, Option.map_some,
          if_neg (List.nodup_cons.1 hnodup).1, if_pos List.mem_cons_self]
      · rw [List.getElem?_set_ne hk]
        congr 1
        funext st
        simp [List.mem_cons, Ne.symm hk]

theorem linkRuns_ok :
    ∀ {runs : List (List Nat × (NfaState → NfaState))} {states out : List NfaState}, (∀ r ∈ runs, r.1.Nodup) →
    linkRuns runs states = .ok out → ∀ k : Nat, out[k]? =
      states[k]?.map fun state => runs.foldl (fun state r => if k ∈ r.1 then r.2 state else state) state
  | [], states, out, _, h, k => by
    cases h
    simp
  | (run, f) :: runs, states, out, hnodup, h, k => by
    obtain ⟨mid, hmid, h⟩ := bind_ok h
    rw [linkRuns_ok (fun r hr => hnodup r (List.mem_cons_of_mem _ hr)) h k,
      linkRun_ok (hnodup _ List.mem_cons_self) hmid k, Option.map_map]
    rfl

theorem mem_acceptingRun {e : RefEngine} {base k : Nat} :
    k ∈ acceptingRun e base ↔ ∃ s, 1 ≤ s ∧ s < e.stateCount ∧ e.isAccepting s = true ∧ k = base + (s - 1) := by
  rw [acceptingRun, List.mem_map]
  constructor
  · rintro ⟨s, hs, rfl⟩
    obtain ⟨hs, hacc⟩ := List.mem_filter.1 hs
    rw [List.mem_range'_1, RefEngine.liveCount] at hs
    exact ⟨s, hs.1, by omega, hacc, rfl⟩
  · rintro ⟨s, h1, hs, hacc, rfl⟩
    refine ⟨s, List.mem_filter.2 ⟨?_, hacc⟩, rfl⟩
    rw [List.mem_range'_1, RefEngine.liveCount]
    omega

theorem nodup_acceptingRun (e : RefEngine) (base : Nat) : (acceptingRun e base).Nodup := by
  refine List.Nodup.map_on ?_ (List.Nodup.filter _ List.nodup_range')
  intro x hx y hy hxy
  have hx1 := (List.mem_range'_1.1 (List.mem_filter.1 hx).1).1
  have hy1 := (List.mem_range'_1.1 (List.mem_filter.1 hy).1).1
  omega

/-- A copied state is in the run of its own copy, if it accepts, and in no other. -/
theorem mem_acceptingRun_iff {engines : List RefEngine} (hub : Nat) {i j s : Nat} {e e' : RefEngine}
    (hi : engines[i]? = some e) (hj : engines[j]? = some e') (h1 : 1 ≤ s) (hs : s < e.stateCount) :
    baseOf hub engines i + (s - 1) ∈ acceptingRun e' (baseOf hub engines j) ↔ i = j ∧ e.isAccepting s = true := by
  rw [mem_acceptingRun]
  constructor
  · rintro ⟨s', h1', hs', hacc, heq⟩
    rcases Nat.lt_trichotomy i j with hij | hij | hij
    · have := baseOf_next hub hi hij
      unfold RefEngine.liveCount at this
      omega
    · subst hij
      rw [hi] at hj
      cases hj
      have : s = s' := by omega
      exact ⟨rfl, this ▸ hacc⟩
    · have := baseOf_next hub hj hij
      unfold RefEngine.liveCount at this
      omega
  · rintro ⟨rfl, hacc⟩
    rw [hi] at hj
    cases hj
    exact ⟨s, h1, hs, hacc, rfl⟩

/-- **Linking changes a copy's accepting states by its own link.** -/
theorem foldl_links {engines : List RefEngine} {hub i s : Nat} {e : RefEngine} {f : Nat → NfaState → NfaState}
    (hi : engines[i]? = some e)
    (h1 : 1 ≤ s) (hs : s < e.stateCount) (state : NfaState) : ∀ count : Nat, count ≤ engines.length →
    ((List.range count).foldl (fun state j =>
      if baseOf hub engines i + (s - 1) ∈ (engines.mapIdx fun j e => acceptingRun e (baseOf hub engines j))[j]?.getD []
      then f j state else state) state) = if i < count ∧ e.isAccepting s = true then f i state else state
  | 0, _ => by simp
  | count + 1, hcount => by
    have hlt : count < engines.length := hcount
    have hget : (engines.mapIdx fun j e => acceptingRun e (baseOf hub engines j))[count]? =
        some (acceptingRun engines[count] (baseOf hub engines count)) := by
      rw [List.getElem?_mapIdx, List.getElem?_eq_getElem hlt, Option.map_some]
    have hmem := mem_acceptingRun_iff hub hi (List.getElem?_eq_getElem hlt) h1 hs
    rw [List.range_succ, List.foldl_append, List.foldl_cons, List.foldl_nil,
      foldl_links hi h1 hs state count (Nat.le_of_lt hlt), hget, Option.getD_some]
    by_cases hic : i = count
    · by_cases hacc : e.isAccepting s = true
      · rw [if_pos (hmem.2 ⟨hic, hacc⟩), if_neg (fun h => by omega), if_pos ⟨by omega, hacc⟩, hic]
      · rw [if_neg (fun h => hacc (hmem.1 h).2), if_neg (fun h => hacc h.2), if_neg (fun h => hacc h.2)]
    · rw [if_neg (fun h => hic (hmem.1 h).1)]
      by_cases hbelow : i < count ∧ e.isAccepting s = true
      · rw [if_pos hbelow, if_pos ⟨Nat.lt_succ_of_lt hbelow.1, hbelow.2⟩]
      · rw [if_neg hbelow, if_neg]
        exact fun h => hbelow ⟨by omega, h.2⟩

/-! ### Words along the links -/

/-- The words read when a copy is entered: none at first, then one word of each copy passed. -/
inductive Entry (engines : List RefEngine) (init : List Nat) (next : Nat → List Nat) : Nat → List Byte → Prop
  | init {i : Nat} (h : i ∈ init) : Entry engines init next i []
  | next {i j : Nat} {e : RefEngine} {v u : List Byte} (h : Entry engines init next i v) (hi : engines[i]? = some e)
      (hu : e.accepts u = true) (hj : j ∈ next i) : Entry engines init next j (v ++ u)

/-- An automaton of copies: `next` links them, and those that are `last` keep their accepting states. -/
structure Chain (nfa : ByteNfa) (hub : Nat) (engines : List RefEngine) (next : Nat → List Nat) (last : Nat → Bool) :
    Prop where
  alive : ∀ e ∈ engines, e.start ≠ dead
  linked : ∀ i, ∀ j ∈ next i, j < engines.length
  states : ∀ (i : Nat) (e : RefEngine) (s : Nat), engines[i]? = some e → 1 ≤ s → s < e.stateCount →
    nfa.states[baseOf hub engines i + (s - 1)]? = some ⟨engineEdges e (baseOf hub engines i) s,
      if e.isAccepting s = true then (next i).map (entryOf hub engines) else [], e.isAccepting s && last i⟩

/-- A chain begins in a state of its own, with empty steps to the starts of some copies, or in the start of one copy. -/
inductive Begins (nfa : ByteNfa) (hub : Nat) (engines : List RefEngine) : List Nat → Bool → Prop
  | hub {init : List Nat} {accepting : Bool} (hinit : ∀ i ∈ init, i < engines.length)
      (h : nfa.states[nfa.start]? = some ⟨[], init.map (entryOf hub engines), accepting⟩) :
        Begins nfa hub engines init accepting
  | copy {i : Nat} (hi : i < engines.length) (h : nfa.start = entryOf hub engines i) : Begins nfa hub engines [i] false

theorem mem_engineEdges {e : RefEngine} {base s t : Nat} {b : Byte} : (b, t) ∈ engineEdges e base s ↔
    e.step s (e.classOfByte b) ≠ dead ∧ t = base + (e.step s (e.classOfByte b) - 1) := by
  rw [engineEdges, List.mem_filterMap]
  constructor
  · rintro ⟨b', _, h⟩
    split at h
    · cases h
    · rename_i hne
      cases h
      exact ⟨hne, rfl⟩
  · rintro ⟨hne, rfl⟩
    exact ⟨b, mem_allBytes b, if_neg hne⟩

section
variable {nfa : ByteNfa} {hub : Nat} {engines : List RefEngine} {next : Nat → List Nat} {last : Nat → Bool}
  {init : List Nat}
  {accepting : Bool}

/-- Inside a copy: the words of the copies passed, and what of the present one has been read. -/
def Inside (hub : Nat) (engines : List RefEngine) (init : List Nat) (next : Nat → List Nat) (w : List Byte) (q : Nat) :
    Prop :=
  ∃ i e s v u, engines[i]? = some e ∧ Entry engines init next i v ∧ w = v ++ u ∧ e.consumeToken e.start u = some s ∧
    s ≠ dead ∧ s < e.stateCount ∧ q = baseOf hub engines i + (s - 1)

theorem inside_entry (halive : ∀ e ∈ engines, e.start ≠ dead) {i : Nat} {v : List Byte} (hi : i < engines.length)
    (h : Entry engines init next i v) : Inside hub engines init next v (entryOf hub engines i) := by
  have hget := List.getElem?_eq_getElem hi
  refine ⟨i, engines[i], engines[i].start, v, [], hget, h, (List.append_nil v).symm, rfl,
    halive _ (List.getElem_mem hi), engines[i].wf.startLt, ?_⟩
  rw [entryOf, hget]
  rfl

theorem Chain.inside_step (h : Chain nfa hub engines next last) {w : List Byte} {q r : Nat}
    (hq : Inside hub engines init next w q) :
    (r ∈ nfa.toεNFA.step q none → Inside hub engines init next w r) ∧
      ∀ b, r ∈ nfa.toεNFA.step q (some b) → Inside hub engines init next (w ++ [b]) r := by
  obtain ⟨i, e, s, v, u, hi, hentry, rfl, hrun, hne, hlt, rfl⟩ := hq
  have hstate := h.states i e s hi (Nat.pos_of_ne_zero hne) hlt
  constructor
  · rintro ⟨state, hget, hr⟩
    rw [hstate] at hget
    cases hget
    dsimp only at hr
    split at hr
    · rename_i hacc
      obtain ⟨j, hj, rfl⟩ := List.mem_map.1 hr
      refine inside_entry h.alive (h.linked i j hj) (.next hentry hi ?_ hj)
      exact (e.acceptsFrom_iff e.start u).2 ⟨s, hrun, hacc⟩
    · cases hr
  · rintro b ⟨state, hget, hr⟩
    rw [hstate] at hget
    cases hget
    obtain ⟨hstep, rfl⟩ := mem_engineEdges.1 hr
    refine ⟨i, e, _, v, u ++ [b], hi, hentry, List.append_assoc .., ?_, hstep, e.step_lt hstep, rfl⟩
    rw [e.consumeToken_append, hrun, Option.bind_some, RefEngine.consumeToken, if_neg hne, if_neg hstep]
    rfl

/-- Where the automaton can be: in its own start before any byte, or inside a copy. -/
theorem Chain.inside (h : Chain nfa hub engines next last) (hbegin : Begins nfa hub engines init accepting)
    {w : List Byte} {q : Nat} (hq : q ∈ nfa.toεNFA.eval w) :
    (w = [] ∧ q = nfa.start ∧ ∃ init', nfa.states[nfa.start]? = some ⟨[], init', accepting⟩) ∨
      Inside hub engines init next w q := by
  refine EpsilonRun.induct (P := fun w q => (w = [] ∧ q = nfa.start ∧ ∃ init',
    nfa.states[nfa.start]? = some ⟨[], init', accepting⟩) ∨
    Inside hub engines init next w q) ?_ ?_ ?_ hq
  · intro q hq
    rw [show q = nfa.start from hq]
    cases hbegin with
    | hub _ hstart => exact .inl ⟨rfl, rfl, _, hstart⟩
    | copy hi hstart =>
      rw [hstart]
      exact .inr (inside_entry h.alive hi (.init List.mem_cons_self))
  · intro w q r hq hr
    rcases hq with ⟨rfl, rfl, init', hstart⟩ | hq
    · obtain ⟨state, hget, hr⟩ := hr
      cases hbegin with
      | hub hinit hstart' =>
        rw [hstart'] at hget
        cases hget
        obtain ⟨i, hi, rfl⟩ := List.mem_map.1 hr
        exact .inr (inside_entry h.alive (hinit i hi) (.init hi))
      | @copy i hi hentry =>
        have hin : Inside hub engines [i] next [] (entryOf hub engines i) :=
          inside_entry h.alive hi (.init List.mem_cons_self)
        rw [← hentry] at hin
        exact .inr ((h.inside_step hin).1 ⟨state, hget, hr⟩)
    · exact .inr ((h.inside_step hq).1 hr)
  · intro w q r b hq hr
    rcases hq with ⟨rfl, rfl, init', hstart⟩ | hq
    · obtain ⟨state, hget, hr⟩ := hr
      rw [hstart] at hget
      cases hget
      cases hr
    · exact .inr ((h.inside_step hq).2 b hr)

/-- A copy reads on. -/
theorem Chain.eval_run (h : Chain nfa hub engines next last) {i : Nat} {e : RefEngine} (hi : engines[i]? = some e) :
    ∀ {u w : List Byte} {q s : Nat}, q ≠ dead → q < e.stateCount → baseOf hub engines i + (q - 1) ∈ nfa.toεNFA.eval w →
      e.consumeToken q u = some s → baseOf hub engines i + (s - 1) ∈ nfa.toεNFA.eval (w ++ u)
  | [], w, q, s, _, _, hq, hs => by
    cases hs
    rwa [List.append_nil]
  | b :: u, w, q, s, hne, hlt, hq, hs => by
    rw [RefEngine.consumeToken, if_neg hne] at hs
    split at hs
    · cases hs
    · rename_i hstep
      have hedge : baseOf hub engines i + (e.step q (e.classOfByte b) - 1) ∈ nfa.toεNFA.step
        (baseOf hub engines i + (q - 1)) (some b) :=
        ⟨_, h.states i e q hi (Nat.pos_of_ne_zero hne) hlt, mem_engineEdges.2 ⟨hstep, rfl⟩⟩
      have hrest := h.eval_run hi hstep (e.step_lt hstep) (EpsilonRun.letter hq hedge) hs
      rwa [List.append_assoc] at hrest

theorem Begins.eval (hbegin : Begins nfa hub engines init accepting) {i : Nat} (hi : i ∈ init) :
    i < engines.length ∧ entryOf hub engines i ∈ nfa.toεNFA.eval [] := by
  cases hbegin with
  | hub hinit hstart =>
    exact ⟨hinit i hi, EpsilonRun.empty (EpsilonRun.start rfl) ⟨_, hstart, List.mem_map_of_mem hi⟩⟩
  | copy hj hstart =>
    rw [List.mem_singleton.1 hi]
    exact ⟨hj, EpsilonRun.start hstart.symm⟩

/-- A copy's word, read from its start. -/
theorem Chain.eval_word (h : Chain nfa hub engines next last) {i : Nat} {e : RefEngine} (hi : engines[i]? = some e)
    {v u : List Byte}
    (hentry : entryOf hub engines i ∈ nfa.toεNFA.eval v) (hu : e.accepts u = true) : ∃ s, s ≠ dead ∧ s < e.stateCount ∧
      e.isAccepting s = true ∧ baseOf hub engines i + (s - 1) ∈ nfa.toεNFA.eval (v ++ u) := by
  obtain ⟨s, hrun, hacc⟩ := (e.acceptsFrom_iff e.start u).1 hu
  have halive := h.alive e (List.mem_of_getElem? hi)
  have hne : s ≠ dead := by
    rintro rfl
    rw [e.isAccepting_dead] at hacc
    cases hacc
  have hlt : s < e.stateCount := by
    unfold RefEngine.isAccepting at hacc
    rw [← e.wf.acceptingLen]
    by_contra hge
    rw [List.getElem?_eq_none (Nat.le_of_not_lt hge)] at hacc
    cases hacc
  rw [entryOf, hi] at hentry
  exact ⟨s, hne, hlt, hacc, h.eval_run hi halive e.wf.startLt hentry hrun⟩

theorem Chain.eval_entry (h : Chain nfa hub engines next last) (hbegin : Begins nfa hub engines init accepting)
    {i : Nat} {v : List Byte}
    (hv : Entry engines init next i v) : i < engines.length ∧ entryOf hub engines i ∈ nfa.toεNFA.eval v := by
  induction hv with
  | init hi => exact hbegin.eval hi
  | @next i j e v u _ hi hu hj ih =>
    obtain ⟨s, hne, hlt, hacc, hs⟩ := h.eval_word hi ih.2 hu
    refine ⟨h.linked i j hj, EpsilonRun.empty hs ⟨_, h.states i e s hi (Nat.pos_of_ne_zero hne) hlt, ?_⟩⟩
    dsimp only
    rw [if_pos hacc]
    exact List.mem_map_of_mem hj

/-- **A chain accepts the words cut along its links**, and the empty word if its own start does. -/
theorem Chain.accepts_iff (h : Chain nfa hub engines next last) (hbegin : Begins nfa hub engines init accepting)
    (w : List Byte) :
    w ∈ nfa.toεNFA.accepts ↔ (w = [] ∧ accepting = true) ∨
      ∃ i e v u, engines[i]? = some e ∧ Entry engines init next i v ∧ e.accepts u = true ∧ last i = true ∧
      w = v ++ u := by
  rw [EpsilonRun.mem_accepts]
  constructor
  · rintro ⟨q, hacc, hq⟩
    change nfa.isAccepting q = true at hacc
    rw [ByteNfa.isAccepting] at hacc
    rcases h.inside hbegin hq with ⟨rfl, rfl, init', hstart⟩ | ⟨i, e, s, v, u, hi, hentry, rfl, hrun, hne, hlt, rfl⟩
    · rw [hstart] at hacc
      exact .inl ⟨rfl, hacc⟩
    · rw [h.states i e s hi (Nat.pos_of_ne_zero hne) hlt] at hacc
      rw [Option.map_some, Option.getD_some, Bool.and_eq_true] at hacc
      exact .inr ⟨i, e, v, u, hi, hentry, (e.acceptsFrom_iff e.start u).2 ⟨s, hrun, hacc.1⟩, hacc.2, rfl⟩
  · rintro (⟨rfl, rfl⟩ | ⟨i, e, v, u, hi, hentry, hu, hlast, rfl⟩)
    · cases hbegin with
      | hub _ hstart =>
        refine ⟨nfa.start, ?_, EpsilonRun.start rfl⟩
        change nfa.isAccepting nfa.start = true
        rw [ByteNfa.isAccepting, hstart]
        rfl
    · obtain ⟨s, hne, hlt, hacc, hs⟩ := h.eval_word hi (h.eval_entry hbegin hentry).2 hu
      refine ⟨_, ?_, hs⟩
      change nfa.isAccepting _ = true
      rw [ByteNfa.isAccepting, h.states i e s hi (Nat.pos_of_ne_zero hne) hlt, Option.map_some, Option.getD_some,
        hacc, hlast]
      rfl

end

end MaskForge
