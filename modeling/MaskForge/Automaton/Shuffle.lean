import MaskForge.Automaton.FromRows
import MaskForge.Automaton.Language
import MaskForge.Lib.EpsilonRun
import MaskForge.Lib.SortDedup
/-!
# Shuffle — fields in any order, separated, each at most once

Where a body under way can be is a set of configurations: the fields completed so far, as a bitset, and the engine the
next bytes are read by.  The sets reached are explored as the subsets of an automaton with empty steps are.
-/
namespace MaskForge

def maxShuffleFields : Nat := 32

def maxShuffleStates : Nat := 2 ^ 16

def maxShuffleEdges : Nat := 2 ^ 20

def shuffleMalformed (message : String) : CompileError := ⟨.malformed, .l3, message⟩

def shuffleLimit : CompileError := ⟨.internalLimitExceeded, .l3, "shuffle cap"⟩

inductive Config where
  | ready (bitset : Nat)
  | inComma (bitset s : Nat)
  | afterComma (bitset : Nat)
  | active (bitset i s : Nat)
  deriving DecidableEq

/-- Configurations are ordered by kind, then by what they hold. -/
def Config.key : Config → List Nat
  | .ready bitset => [0, bitset]
  | .inComma bitset s => [1, bitset, s]
  | .afterComma bitset => [2, bitset]
  | .active bitset i s => [3, bitset, i, s]

theorem Config.key_injective : Function.Injective Config.key := by
  intro a b h
  cases a <;> cases b <;> simp_all [Config.key]

instance : LinearOrder Config := .lift' Config.key Config.key_injective

namespace ShuffleAutomaton

section
variable (fields : List RefEngine) (separator : RefEngine)

/-- What an accepting configuration adds: the separator is read, or the field is. -/
def completed : Config → Option Config
  | .inComma bitset s => if separator.isAccepting s then some (.afterComma bitset) else none
  | .active bitset i s => if (fields[i]?.map fun e => e.isAccepting s).getD false
      then some (.ready (bitset ||| 1 <<< i)) else none
  | _ => none

def additions (configs : List Config) : List Config :=
  configs.foldl (fun added c => match completed fields separator c with
    | some a => if a ∈ configs ∨ a ∈ added then added else added ++ [a]
    | none => added) []

def closeRounds : Nat → List Config → List Config
  | 0, configs => configs
  | f + 1, configs =>
    if (additions fields separator configs).isEmpty then configs
      else closeRounds f (configs ++ additions fields separator configs)

def epsilonClosure (configs : List Config) : List Config :=
  ((closeRounds fields separator (configs.length + 1) configs).mergeSort (· ≤ ·)).destutter (· ≠ ·)

def liveStep (e : RefEngine) (s : Nat) (b : Byte) : Option Nat := (e.consumeToken s [b]).filter fun t => !e.isDead t

/-- The fields of a bitset that is not full, each begun by a byte. -/
def beginFields (bitset : Nat) (b : Byte) (used : Nat → Bool) : List Config :=
  fields.zipIdx.filterMap fun e => if used e.2 then none else (liveStep e.1 e.1.start b).map (.active bitset e.2)

def stepConfig (b : Byte) : Config → List Config
  | .ready 0 => beginFields fields 0 b fun _ => false
  | .ready bitset => ((liveStep separator separator.start b).map (.inComma bitset)).toList
  | .inComma bitset s => ((liveStep separator s b).map (.inComma bitset)).toList
  | .afterComma bitset => beginFields fields bitset b fun i => decide (bitset &&& 1 <<< i ≠ 0)
  | .active bitset i s => (fields[i]?.bind fun e => (liveStep e s b).map (.active bitset i)).toList

def stepConfigs (configs : List Config) (b : Byte) : List Config := configs.flatMap (stepConfig fields separator b)

def requiredMask (required : List Bool) : Nat :=
  required.zipIdx.foldl (fun m r => if r.1 then m ||| 1 <<< r.2 else m) 0

def isFinal (requiredMask : Nat) : Config → Bool
  | .ready bitset => decide (bitset &&& requiredMask = requiredMask)
  | _ => false

/-- The machine of the sets of configurations. -/
def configSets (required : List Bool) : Explore.Machine (List Config) Byte CompileError where
  accept configs := configs.any (isFinal (requiredMask required))
  next configs b :=
    let raw := stepConfigs fields separator configs b
    .ok (if raw.isEmpty then none else some (epsilonClosure fields separator raw))
  room count := (checkedU32 shuffleLimit count).map fun _ => ()
  edge count edges :=
    if maxShuffleStates < count then .error shuffleLimit else if maxShuffleEdges < edges then .error shuffleLimit
      else .ok ()
  rowEnd _ := .ok ()
  lost := shuffleLimit

end

end ShuffleAutomaton

structure ShuffleAutomaton where
  states : List ByteState
  start : Nat

namespace ShuffleAutomaton

def build (fields : List RefEngine) (required : List Bool) (separator : RefEngine) :
    Except CompileError ShuffleAutomaton :=
  if fields.length ≠ required.length then .error (shuffleMalformed "shuffle field count does not match required flags")
  else if maxShuffleFields < fields.length then .error shuffleLimit
  else
    let maxFieldStates := (fields.map fun e => e.stateCount).foldl max 0
    let worstCaseStates := min (maxFieldStates * 2 ^ fields.length) usizeMax
    if maxShuffleStates < worstCaseStates then .error shuffleLimit
    else if maxShuffleEdges < min (worstCaseStates * 256) usizeMax then .error shuffleLimit
    else do
      let (startId, s) ← Explore.explore (configSets fields separator required) allBytes maxShuffleStates
        (epsilonClosure fields separator [.ready 0])
      return ⟨s.rows, startId⟩

def intoGraph (p : ShuffleAutomaton) : Except CompileError AutomatonGraph :=
  AutomatonGraph.fromByteStates p.states p.start

def intoEngine (p : ShuffleAutomaton) : Except CompileError RefEngine := do
  let g ← p.intoGraph
  RefEngine.fromGraph g

/-! ### Bodies -/

/-- **Field bodies**: distinct fields in some order, a word of each, with a word of the separator between any two. -/
inductive Body (fields : List RefEngine) (separator : RefEngine) : List Nat → List Byte → Prop
  | nil : Body fields separator [] []
  | first {i : Nat} {e : RefEngine} {f : List Byte} (hi : fields[i]? = some e)
      (hf : e.accepts f = true) : Body fields separator [i] f
  | more {is : List Nat} {w s f : List Byte} {i : Nat} {e : RefEngine} (h : Body fields separator is w) (hne : is ≠ [])
      (hnew : i ∉ is)
      (hs : separator.accepts s = true) (hi : fields[i]? = some e) (hf : e.accepts f = true) :
      Body fields separator (is ++ [i]) (w ++ s ++ f)

section
variable {fields : List RefEngine} {separator : RefEngine}

/-- No field is used twice. -/
theorem Body.nodup {is : List Nat} {w : List Byte} (h : Body fields separator is w) : is.Nodup := by
  induction h with
  | nil => exact List.nodup_nil
  | first => exact List.nodup_singleton _
  | more _ _ hnew _ _ _ ih =>
    rw [← List.concat_eq_append]
    exact ih.concat hnew

theorem Body.eq_nil {is : List Nat} {w : List Byte} (h : Body fields separator is w) (hnil : is = []) : w = [] := by
  cases h with
  | nil => rfl
  | first => cases hnil
  | more => exact absurd hnil (List.append_ne_nil_of_right_ne_nil _ (List.cons_ne_nil _ _))

/-- What stands before a field: nothing, or a body and a separator. -/
def Lead (fields : List RefEngine) (separator : RefEngine) (is : List Nat) (v : List Byte) : Prop :=
  (is = [] ∧ v = []) ∨ (is ≠ [] ∧ ∃ w s, Body fields separator is w ∧ separator.accepts s = true ∧ v = w ++ s)

theorem Lead.field {is : List Nat} {v f : List Byte} {i : Nat} {e : RefEngine} (h : Lead fields separator is v)
    (hnew : i ∉ is)
    (hi : fields[i]? = some e) (hf : e.accepts f = true) : Body fields separator (is ++ [i]) (v ++ f) := by
  rcases h with ⟨rfl, rfl⟩ | ⟨hne, w, s, hw, hs, rfl⟩
  · exact .first hi hf
  · exact .more hw hne hnew hs hi hf

/-! ### Bitsets -/

/-- A bitset holds the fields of a list. -/
def Holds (bitset : Nat) (is : List Nat) : Prop := ∀ i, bitset.testBit i = true ↔ i ∈ is

theorem holds_nil : Holds 0 [] := fun i => by simp

theorem Holds.eq_nil {is : List Nat} (h : Holds 0 is) : is = [] :=
  List.eq_nil_iff_forall_not_mem.2 fun i hi => by simpa using (h i).2 hi

theorem Holds.ne_nil {bitset : Nat} {is : List Nat} (h : Holds bitset is) (hne : bitset ≠ 0) : is ≠ [] := by
  rintro rfl
  refine hne (Nat.eq_of_testBit_eq fun i => ?_)
  rw [Nat.zero_testBit, ← Bool.not_eq_true]
  exact fun hi => absurd ((h i).1 hi) List.not_mem_nil

theorem Holds.ne_zero {bitset : Nat} {is : List Nat} (h : Holds bitset is) (hne : is ≠ []) : bitset ≠ 0 := by
  rintro rfl
  exact hne h.eq_nil

theorem testBit_one_shiftLeft (i j : Nat) : (1 <<< i).testBit j = decide (i = j) := by
  rw [Nat.one_shiftLeft, Nat.testBit_two_pow]

theorem Holds.add {bitset i : Nat} {is : List Nat} (h : Holds bitset is) : Holds (bitset ||| 1 <<< i) (is ++ [i]) := by
  intro j
  rw [Nat.testBit_or, Bool.or_eq_true, h j, testBit_one_shiftLeft, decide_eq_true_eq, List.mem_append,
    List.mem_singleton, eq_comm]

theorem and_shiftLeft_ne_zero (bitset i : Nat) : bitset &&& 1 <<< i ≠ 0 ↔ bitset.testBit i = true := by
  constructor
  · intro hne
    by_contra hbit
    refine hne (Nat.eq_of_testBit_eq fun j => ?_)
    rw [Nat.testBit_and, testBit_one_shiftLeft, Nat.zero_testBit]
    by_cases hij : i = j
    · rw [← hij, Bool.not_eq_true _ |>.mp hbit]
      rfl
    · rw [decide_eq_false hij, Bool.and_false]
  · intro hbit hzero
    have h := congrArg (Nat.testBit · i) hzero
    simp [hbit] at h

theorem testBit_requiredMask (required : List Bool) (i : Nat) :
    (requiredMask required).testBit i = true ↔ required[i]? = some true := by
  have hgen : ∀ (rs : List Bool) (from_ m : Nat),
    ((rs.zipIdx from_).foldl (fun m (r : Bool × Nat) => if r.1 then m ||| 1 <<< r.2 else m) m).testBit i =
      true ↔ m.testBit i = true ∨ (from_ ≤ i ∧ rs[i - from_]? = some true) := by
    intro rs
    induction rs with
    | nil => simp
    | cons r rs ih =>
      intro from_ m
      rw [List.zipIdx_cons, List.foldl_cons, ih]
      have hget : from_ < i → (r :: rs)[i - from_]? = rs[i - (from_ + 1)]? := by
        intro hlt
        rw [show i - from_ = i - (from_ + 1) + 1 by omega, List.getElem?_cons_succ]
      rcases Nat.lt_trichotomy from_ i with hlt | heq | hgt
      · rw [hget hlt]
        cases r with
        | false =>
          rw [if_neg Bool.false_ne_true]
          exact or_congr_right (and_congr_left' (by omega))
        | true =>
          rw [if_pos rfl, Nat.testBit_or, testBit_one_shiftLeft, decide_eq_false (Nat.ne_of_lt hlt), Bool.or_false]
          exact or_congr_right (and_congr_left' (by omega))
      · subst heq
        rw [Nat.sub_self, List.getElem?_cons_zero]
        cases r <;> simp
      · have hpast : ¬ from_ + 1 ≤ i := by omega
        have hpast' : ¬ from_ ≤ i := by omega
        cases r with
        | false => simp [hpast, hpast']
        | true => simp [hpast, hpast']
  have h := hgen required 0 0
  rw [Nat.zero_testBit, Nat.sub_zero] at h
  simpa [requiredMask] using h

/-- **A bitset holds the required fields** if its common part with the mask is the mask. -/
theorem covers_iff {bitset : Nat} {is : List Nat} (h : Holds bitset is) (required : List Bool) :
    bitset &&& requiredMask required = requiredMask required ↔ ∀ i : Nat, required[i]? = some true → i ∈ is := by
  constructor
  · intro heq i hi
    have hbit := (testBit_requiredMask required i).2 hi
    rw [← heq, Nat.testBit_and, Bool.and_eq_true] at hbit
    exact (h i).1 hbit.1
  · intro hall
    refine Nat.eq_of_testBit_eq fun i => ?_
    rw [Nat.testBit_and]
    cases hbit : (requiredMask required).testBit i with
    | false => exact Bool.and_false _
    | true => rw [(h i).2 (hall i ((testBit_requiredMask required i).1 hbit)), Bool.true_and]

/-! ### Closures -/

theorem completed_completed {c a : Config} (h : completed fields separator c = some a) :
    completed fields separator a = none := by
  unfold completed at h
  split at h
  · split at h
    · cases h
      rfl
    · cases h
  · split at h
    · cases h
      rfl
    · cases h
  · cases h

theorem mem_additions {configs : List Config} {a : Config} : a ∈ additions fields separator configs ↔
    a ∉ configs ∧ ∃ c ∈ configs, completed fields separator c = some a := by
  have hgen : ∀ (cs added : List Config), a ∈ cs.foldl (fun added c => match completed fields separator c with
      | some a => if a ∈ configs ∨ a ∈ added then added else added ++ [a]
      | none => added) added ↔ a ∈ added ∨ (a ∉ configs ∧ ∃ c ∈ cs, completed fields separator c = some a) := by
    intro cs
    induction cs with
    | nil => simp
    | cons c cs ih =>
      intro added
      rw [List.foldl_cons, ih]
      cases hc : completed fields separator c with
      | none => simp [hc]
      | some a' =>
        dsimp only
        by_cases hin : a' ∈ configs ∨ a' ∈ added
        · rw [if_pos hin]
          simp only [List.exists_mem_cons_iff, hc, Option.some.injEq]
          constructor
          · rintro (h | ⟨h, h'⟩)
            · exact .inl h
            · exact .inr ⟨h, .inr h'⟩
          · rintro (h | ⟨h, rfl | h'⟩)
            · exact .inl h
            · exact .inl (hin.resolve_left h)
            · exact .inr ⟨h, h'⟩
        · rw [if_neg hin, List.mem_append, List.mem_singleton]
          simp only [List.exists_mem_cons_iff, hc, Option.some.injEq]
          rw [not_or] at hin
          constructor
          · rintro ((h | rfl) | ⟨h, h'⟩)
            · exact .inl h
            · exact .inr ⟨hin.1, .inl rfl⟩
            · exact .inr ⟨h, .inr h'⟩
          · rintro (h | ⟨h, rfl | h'⟩)
            · exact .inl (.inl h)
            · exact .inl (.inr rfl)
            · exact .inr ⟨h, h'⟩
  have h := hgen configs []
  simpa [additions] using h

/-- One round closes a set: what is added completes nothing further. -/
theorem mem_closeRounds {configs : List Config} {a : Config} :
    a ∈ closeRounds fields separator (configs.length + 1) configs ↔
    a ∈ configs ∨ ∃ c ∈ configs, completed fields separator c = some a := by
  rw [closeRounds]
  by_cases hempty : (additions fields separator configs).isEmpty = true
  · rw [if_pos hempty]
    refine ⟨.inl, fun h => h.elim id fun hc => ?_⟩
    by_contra hnot
    have hmem := mem_additions.2 ⟨hnot, hc⟩
    rw [List.isEmpty_iff.1 hempty] at hmem
    cases hmem
  · rw [if_neg hempty]
    have hnil : additions fields separator (configs ++ additions fields separator configs) = [] := by
      refine List.eq_nil_iff_forall_not_mem.2 fun b hb => ?_
      obtain ⟨hnot, c, hc, hcompleted⟩ := mem_additions.1 hb
      rw [List.mem_append, not_or] at hnot
      rcases List.mem_append.1 hc with hc | hc
      · exact hnot.2 (mem_additions.2 ⟨hnot.1, c, hc, hcompleted⟩)
      · obtain ⟨_, c', _, hc'⟩ := mem_additions.1 hc
        rw [completed_completed hc'] at hcompleted
        cases hcompleted
    have hround : ∀ f, closeRounds fields separator f (configs ++ additions fields separator configs) =
        configs ++ additions fields separator configs := by
      rintro (_ | f)
      · rfl
      · rw [closeRounds, if_pos (by rw [hnil]; rfl)]
    rw [hround, List.mem_append, mem_additions]
    by_cases ha : a ∈ configs
    · exact ⟨fun _ => .inl ha, fun _ => .inl ha⟩
    · exact ⟨fun h => h.elim .inl fun h => .inr h.2, fun h => h.elim .inl fun h => .inr ⟨ha, h⟩⟩

/-- The configurations as an automaton. -/
def toεNFA (fields : List RefEngine) (separator : RefEngine) (required : List Bool) : εNFA Byte Config where
  step c
    | none => {a | completed fields separator c = some a}
    | some b => {a | a ∈ stepConfig fields separator b c}
  start := {.ready 0}
  accept := {c | isFinal (requiredMask required) c = true}

theorem epsilonClosure_eq (required : List Bool) (configs : List Config) :
    {c | c ∈ epsilonClosure fields separator configs} = (toεNFA fields separator required).εClosure
    {c | c ∈ configs} := by
  ext a
  rw [Set.mem_ofPred_eq, epsilonClosure, SortDedup.mem_destutter, List.mem_mergeSort, mem_closeRounds]
  constructor
  · rintro (ha | ⟨c, hc, ha⟩)
    · exact εNFA.εClosure.base a ha
    · exact εNFA.εClosure.step c a ha (εNFA.εClosure.base c hc)
  · intro ha
    induction ha with
    | base a ha => exact .inl ha
    | step c a ha _ ih =>
      rcases ih with hc | ⟨c', _, hc⟩
      · exact .inr ⟨c, hc, ha⟩
      · have ha' : completed fields separator c = some a := ha
        rw [completed_completed hc] at ha'
        cases ha'

theorem stepSet_eq (required : List Bool) (configs : List Config) (b : Byte) :
    (toεNFA fields separator required).stepSet {c | c ∈ configs} b =
      (toεNFA fields separator required).εClosure {a | a ∈ stepConfigs fields separator configs b} := by
  ext a
  rw [εNFA.mem_stepSet_iff, (toεNFA fields separator required).mem_εClosure_iff_exists]
  constructor
  · rintro ⟨c, hc, ha⟩
    obtain ⟨a', ha', ha⟩ := (toεNFA fields separator required).mem_εClosure_iff_exists.1 ha
    exact ⟨a', List.mem_flatMap.2 ⟨c, hc, ha'⟩, ha⟩
  · rintro ⟨a', ha', ha⟩
    obtain ⟨c, hc, ha'⟩ := List.mem_flatMap.1 ha'
    exact ⟨c, hc, (toεNFA fields separator required).mem_εClosure_iff_exists.2 ⟨a', ha', ha⟩⟩

theorem configSets_caps (required : List Bool) :
    Explore.Caps (configSets fields separator required) maxShuffleStates := by
  intro n edges _ hedge
  dsimp only [configSets] at hedge
  split at hedge
  · cases hedge
  · omega

/-- **The rows that are built accept what the automaton of the configurations does.** -/
theorem build_ok {required : List Bool} {p : ShuffleAutomaton} (h : build fields required separator = .ok p)
    (w : List Byte) :
    Explore.accepts p.states p.start w = true ↔ w ∈ (toεNFA fields separator required).accepts := by
  unfold build at h
  split at h
  · cases h
  · split at h
    · cases h
    · dsimp only at h
      split at h
      · cases h
      · split at h
        · cases h
        · obtain ⟨⟨startId, s⟩, hexplore, h⟩ := bind_ok h
          cases h
          obtain ⟨rfl, hinv, hall⟩ := Explore.explore_ok (configSets_caps required) (by decide) nodup_allBytes
            (Nat.le_refl _) hexplore
          refine hinv.accepts_iff_eval (fun configs => {c | c ∈ configs}) hall mem_allBytes ?_ (fun configs b hn => ?_)
            (fun configs b next hn => ?_) (fun configs => ?_) w
          · rw [epsilonClosure_eq required]
            congr 1
            ext c
            exact List.mem_singleton
          · rw [stepSet_eq]
            dsimp only [configSets] at hn
            split at hn
            · rename_i hempty
              rw [List.isEmpty_iff.1 hempty]
              simp
            · cases hn
          · rw [stepSet_eq, ← epsilonClosure_eq required]
            dsimp only [configSets] at hn
            split at hn
            · cases hn
            · cases hn
              rfl
          · show configs.any _ = true ↔ _
            rw [List.any_eq_true]
            exact ⟨fun ⟨c, hc, hfinal⟩ => ⟨c, hfinal, hc⟩, fun ⟨c, hfinal, hc⟩ => ⟨c, hc, hfinal⟩⟩

/-! ### Where a body can be -/

theorem liveStep_eq {e : RefEngine} {s t : Nat} {b : Byte} :
    liveStep e s b = some t ↔ e.step s (e.classOfByte b) = t ∧ t ≠ dead := by
  rw [liveStep, Option.filter_eq_some_iff]
  by_cases hs : s = dead
  · subst hs
    rw [e.step_dead]
    constructor
    · rintro ⟨h, _⟩
      cases h
    · rintro ⟨rfl, h⟩
      exact absurd rfl h
  · rw [e.consumeToken_eq [b] s hs]
    show (if e.step s (e.classOfByte b) = dead then none else some (e.step s (e.classOfByte b))) = some t ∧ _ ↔ _
    by_cases hstep : e.step s (e.classOfByte b) = dead
    · rw [if_pos hstep, hstep]
      constructor
      · rintro ⟨h, _⟩
        cases h
      · rintro ⟨rfl, h⟩
        exact absurd rfl h
    · rw [if_neg hstep, Option.some.injEq]
      constructor
      · rintro ⟨rfl, _⟩
        exact ⟨rfl, hstep⟩
      · rintro ⟨rfl, h⟩
        have hlt := e.step_lt h
        refine ⟨rfl, ?_⟩
        simp [RefEngine.isDead, h, hlt]

/-- An engine has read some bytes from its start, and is not in DEAD. -/
def Reading (e : RefEngine) (u : List Byte) (s : Nat) : Prop := e.stepBytes e.start u = s ∧ s ≠ dead

theorem Reading.push {e : RefEngine} {u : List Byte} {s t : Nat} {b : Byte} (h : Reading e u s)
    (ht : liveStep e s b = some t) :
    Reading e (u ++ [b]) t := by
  obtain ⟨rfl, _⟩ := h
  obtain ⟨hstep, ht⟩ := liveStep_eq.1 ht
  exact ⟨(e.stepBytes_append _ _ _).trans hstep, ht⟩

theorem Reading.begin {e : RefEngine} {t : Nat} {b : Byte} (ht : liveStep e e.start b = some t) : Reading e [b] t :=
  liveStep_eq.1 ht

theorem Reading.accepts {e : RefEngine} {u : List Byte} {s : Nat} (h : Reading e u s) (hacc : e.isAccepting s = true) :
    e.accepts u = true := by
  obtain ⟨rfl, _⟩ := h
  rwa [e.isAccepting_stepBytes] at hacc

/-- What has been read when a configuration is reached. -/
def Reached (fields : List RefEngine) (separator : RefEngine) (w : List Byte) : Config → Prop
  | .ready bitset => ∃ is, Holds bitset is ∧ Body fields separator is w
  | .inComma bitset s => ∃ is v u, Holds bitset is ∧ is ≠ [] ∧ Body fields separator is v ∧ Reading separator u s ∧
      w = v ++ u
  | .afterComma bitset => ∃ is, Holds bitset is ∧ Lead fields separator is w
  | .active bitset i s => ∃ is v e u, Holds bitset is ∧ i ∉ is ∧ Lead fields separator is v ∧ fields[i]? = some e ∧
      Reading e u s ∧ w = v ++ u

theorem mem_beginFields {bitset : Nat} {b : Byte} {used : Nat → Bool} {c : Config} :
    c ∈ beginFields fields bitset b used ↔
    ∃ i e t, fields[i]? = some e ∧ used i = false ∧ liveStep e e.start b = some t ∧ c = .active bitset i t := by
  rw [beginFields, List.mem_filterMap]
  constructor
  · rintro ⟨⟨e, i⟩, hmem, h⟩
    split at h
    · cases h
    · rename_i hused
      obtain ⟨t, ht, rfl⟩ := Option.map_eq_some_iff.1 h
      exact ⟨i, e, t, List.mk_mem_zipIdx_iff_getElem?.1 hmem, Bool.not_eq_true _ |>.mp hused, ht, rfl⟩
  · rintro ⟨i, e, t, he, hused, ht, rfl⟩
    refine ⟨(e, i), List.mk_mem_zipIdx_iff_getElem?.2 he, ?_⟩
    rw [if_neg (by rw [hused]; exact Bool.false_ne_true), ht]
    rfl

theorem mem_stepConfig_start {b : Byte} {c : Config} : c ∈ stepConfig fields separator b (.ready 0) ↔
    ∃ i e t, fields[i]? = some e ∧ liveStep e e.start b = some t ∧ c = .active 0 i t := by
  change c ∈ beginFields fields 0 b (fun _ => false) ↔ _
  rw [mem_beginFields]
  simp

theorem mem_stepConfig_afterComma {bitset : Nat} {is : List Nat} (hbits : Holds bitset is) {b : Byte} {c : Config} :
    c ∈ stepConfig fields separator b (.afterComma bitset) ↔
      ∃ i e t, fields[i]? = some e ∧ i ∉ is ∧ liveStep e e.start b = some t ∧ c = .active bitset i t := by
  change c ∈ beginFields fields bitset b (fun i => decide (bitset &&& 1 <<< i ≠ 0)) ↔ _
  rw [mem_beginFields]
  simp only [decide_eq_false_iff_not, and_shiftLeft_ne_zero, hbits _]

theorem stepConfig_ready {bitset : Nat} (hne : bitset ≠ 0) (b : Byte) : stepConfig fields separator b (.ready bitset) =
    ((liveStep separator separator.start b).map (.inComma bitset)).toList := by
  cases bitset with
  | zero => exact absurd rfl hne
  | succ n => rfl

theorem Reached.completed {w : List Byte} {c a : Config} (h : Reached fields separator w c)
    (ha : ShuffleAutomaton.completed fields separator c = some a) : Reached fields separator w a := by
  cases c with
  | ready bitset => cases ha
  | afterComma bitset => cases ha
  | inComma bitset s =>
    obtain ⟨is, v, u, hbits, hne, hbody, hread, rfl⟩ := h
    rw [ShuffleAutomaton.completed] at ha
    split at ha
    · rename_i hacc
      cases ha
      exact ⟨is, hbits, .inr ⟨hne, v, u, hbody, hread.accepts hacc, rfl⟩⟩
    · cases ha
  | active bitset i s =>
    obtain ⟨is, v, e, u, hbits, hnew, hlead, hi, hread, rfl⟩ := h
    rw [ShuffleAutomaton.completed, hi] at ha
    split at ha
    · rename_i hacc
      cases ha
      exact ⟨is ++ [i], hbits.add, hlead.field hnew hi (hread.accepts hacc)⟩
    · cases ha

theorem Reached.step {w : List Byte} {c a : Config} {b : Byte} (h : Reached fields separator w c)
    (ha : a ∈ stepConfig fields separator b c) : Reached fields separator (w ++ [b]) a := by
  cases c with
  | ready bitset =>
    obtain ⟨is, hbits, hbody⟩ := h
    by_cases hzero : bitset = 0
    · subst hzero
      obtain ⟨i, e, t, hi, ht, rfl⟩ := mem_stepConfig_start.1 ha
      rw [hbody.eq_nil hbits.eq_nil]
      exact ⟨[], [], e, [b], holds_nil, List.not_mem_nil, .inl ⟨rfl, rfl⟩, hi, .begin ht, rfl⟩
    · rw [stepConfig_ready hzero, Option.mem_toList] at ha
      obtain ⟨t, ht, rfl⟩ := Option.map_eq_some_iff.1 ha
      exact ⟨is, w, [b], hbits, hbits.ne_nil hzero, hbody, .begin ht, rfl⟩
  | inComma bitset s =>
    obtain ⟨is, v, u, hbits, hne, hbody, hread, rfl⟩ := h
    obtain ⟨t, ht, rfl⟩ := Option.map_eq_some_iff.1 (Option.mem_toList.1 ha)
    exact ⟨is, v, u ++ [b], hbits, hne, hbody, hread.push ht, List.append_assoc ..⟩
  | afterComma bitset =>
    obtain ⟨is, hbits, hlead⟩ := h
    obtain ⟨i, e, t, hi, hused, ht, rfl⟩ := (mem_stepConfig_afterComma hbits).1 ha
    exact ⟨is, w, e, [b], hbits, hused, hlead, hi, .begin ht, rfl⟩
  | active bitset i s =>
    obtain ⟨is, v, e, u, hbits, hnew, hlead, hi, hread, rfl⟩ := h
    rw [stepConfig, hi, Option.bind_some, Option.mem_toList] at ha
    obtain ⟨t, ht, rfl⟩ := Option.map_eq_some_iff.1 ha
    exact ⟨is, v, e, u ++ [b], hbits, hnew, hlead, hi, hread.push ht, List.append_assoc ..⟩

section
variable {required : List Bool}

theorem reached_of_eval {w : List Byte} {c : Config} (h : c ∈ (toεNFA fields separator required).eval w) :
    Reached fields separator w c := by
  refine EpsilonRun.induct (P := Reached fields separator) ?_ ?_ ?_ h
  · intro q hq
    rw [show q = .ready 0 from hq]
    exact ⟨[], holds_nil, .nil⟩
  · intro w q r hq hr
    exact hq.completed hr
  · intro w q r b hq hr
    exact hq.step hr

/-- A word of an engine, read from where its first byte leads on. -/
theorem eval_word {e : RefEngine} {mk : Nat → Config} {c : Config} {v f : List Byte}
    (hfirst : ∀ b t, liveStep e e.start b = some t → mk t ∈ stepConfig fields separator b c)
    (hnext : ∀ s b t, liveStep e s b = some t → mk t ∈ stepConfig fields separator b (mk s))
    (hc : c ∈ (toεNFA fields separator required).eval v) (hf : e.accepts f = true) (hne : f ≠ []) :
    ∃ s, e.isAccepting s = true ∧ mk s ∈ (toεNFA fields separator required).eval (v ++ f) := by
  have hrun : ∀ (u : List Byte) (s : Nat) (v : List Byte), mk s ∈ (toεNFA fields separator required).eval v →
    e.acceptsFrom s u = true →
      ∃ t, e.isAccepting t = true ∧ mk t ∈ (toεNFA fields separator required).eval (v ++ u) := by
    intro u
    induction u with
    | nil =>
      intro s v hs hacc
      exact ⟨s, hacc, by rwa [List.append_nil]⟩
    | cons b u ih =>
      intro s v hs hacc
      rw [e.acceptsFrom_cons] at hacc
      have halive : e.step s (e.classOfByte b) ≠ dead := by
        intro hdead
        rw [hdead, e.acceptsFrom_dead] at hacc
        cases hacc
      have hstep := EpsilonRun.letter hs (hnext s b _ (liveStep_eq.2 ⟨rfl, halive⟩))
      have hrest := ih _ _ hstep hacc
      rwa [List.append_assoc] at hrest
  obtain ⟨b, u, rfl⟩ := List.exists_cons_of_ne_nil hne
  rw [e.accepts_eq, e.acceptsFrom_cons] at hf
  have halive : e.step e.start (e.classOfByte b) ≠ dead := by
    intro hdead
    rw [hdead, e.acceptsFrom_dead] at hf
    cases hf
  have hstep := EpsilonRun.letter hc (hfirst b _ (liveStep_eq.2 ⟨rfl, halive⟩))
  have hrest := hrun u _ _ hstep hf
  rwa [List.append_assoc] at hrest

theorem eval_field {bitset i : Nat} {e : RefEngine} {c : Config} {v f : List Byte} (hi : fields[i]? = some e)
    (hfirst : ∀ b t, liveStep e e.start b = some t → .active bitset i t ∈ stepConfig fields separator b c)
    (hc : c ∈ (toεNFA fields separator required).eval v) (hf : e.accepts f = true) (hne : f ≠ []) :
    .ready (bitset ||| 1 <<< i) ∈ (toεNFA fields separator required).eval (v ++ f) := by
  have hnext : ∀ s b t, liveStep e s b = some t →
    .active bitset i t ∈ stepConfig fields separator b (.active bitset i s) := by
    intro s b t ht
    rw [stepConfig, hi, Option.bind_some, ht]
    exact List.mem_cons_self
  obtain ⟨s, hacc, hs⟩ := eval_word hfirst hnext hc hf hne
  refine EpsilonRun.empty hs ?_
  show completed fields separator (.active bitset i s) = _
  rw [completed, hi, Option.map_some, Option.getD_some, if_pos hacc]

theorem Body.eval (hfields : ∀ e ∈ fields, e.accepts [] = false) (hsep : separator.accepts [] = false) {is : List Nat}
    {w : List Byte} (h : Body fields separator is w) :
    ∃ bitset, Holds bitset is ∧ .ready bitset ∈ (toεNFA fields separator required).eval w := by
  have hsome : ∀ {e : RefEngine} {u : List Byte}, e.accepts [] = false → e.accepts u = true → u ≠ [] := by
    rintro e u hnil hu rfl
    rw [hnil] at hu
    cases hu
  induction h with
  | nil => exact ⟨0, holds_nil, EpsilonRun.start rfl⟩
  | @first i e f hi hf =>
    refine ⟨0 ||| 1 <<< i, holds_nil.add, ?_⟩
    have hstart : Config.ready 0 ∈ (toεNFA fields separator required).eval [] := EpsilonRun.start rfl
    have hend := eval_field hi (fun b t ht => mem_stepConfig_start.2 ⟨i, e, t, hi, ht, rfl⟩) hstart hf
      (hsome (hfields e (List.mem_of_getElem? hi)) hf)
    exact hend
  | @more is w s f i e _ hne hnew hs hi hf ih =>
    obtain ⟨bitset, hbits, hready⟩ := ih
    have hzero := hbits.ne_zero hne
    have hcomma : ∀ b t, liveStep separator separator.start b = some t →
      .inComma bitset t ∈ stepConfig fields separator b (.ready bitset) := by
      intro b t ht
      rw [stepConfig_ready hzero, ht]
      exact List.mem_cons_self
    have hnext : ∀ s b t, liveStep separator s b = some t →
      .inComma bitset t ∈ stepConfig fields separator b (.inComma bitset s) := by
      intro s b t ht
      rw [stepConfig, ht]
      exact List.mem_cons_self
    obtain ⟨q, hacc, hq⟩ := eval_word hcomma hnext hready hs (hsome hsep hs)
    have hafter : Config.afterComma bitset ∈ (toεNFA fields separator required).eval (w ++ s) := by
      refine EpsilonRun.empty hq ?_
      show completed fields separator (.inComma bitset q) = _
      rw [completed, if_pos hacc]
    exact ⟨bitset ||| 1 <<< i, hbits.add, eval_field hi
      (fun b t ht => (mem_stepConfig_afterComma hbits).2 ⟨i, e, t, hi, hnew, ht, rfl⟩) hafter hf
      (hsome (hfields e (List.mem_of_getElem? hi)) hf)⟩

end

/-- **Shuffles accept the unordered field bodies**: distinct fields, every required one among them, words of the
separator between them. -/
theorem shuffle_exact {required : List Bool} {p : ShuffleAutomaton} {e : RefEngine}
    (hfields : ∀ e ∈ fields, e.accepts [] = false) (hsep : separator.accepts [] = false)
    (hp : build fields required separator = .ok p) (he : p.intoEngine = .ok e) (w : List Byte) :
    e.accepts w = true ↔ ∃ is : List Nat, is.Nodup ∧ (∀ i : Nat, required[i]? = some true → i ∈ is) ∧
      Body fields separator is w := by
  rw [byteStates_engine he, build_ok hp, EpsilonRun.mem_accepts]
  constructor
  · rintro ⟨c, hfinal, hc⟩
    cases c with
    | ready bitset =>
      obtain ⟨is, hbits, hbody⟩ := reached_of_eval hc
      exact ⟨is, hbody.nodup, (covers_iff hbits required).1 (of_decide_eq_true hfinal), hbody⟩
    | inComma => cases hfinal
    | afterComma => cases hfinal
    | active => cases hfinal
  · rintro ⟨is, _, hrequired, hbody⟩
    obtain ⟨bitset, hbits, hready⟩ := hbody.eval hfields hsep
    exact ⟨_, decide_eq_true ((covers_iff hbits required).2 hrequired), hready⟩

end

/-- A closure sorted by insertion, which evaluates. -/
theorem epsilonClosure_insertion (fields : List RefEngine) (separator : RefEngine) (configs : List Config) :
    epsilonClosure fields separator configs =
      ((closeRounds fields separator (configs.length + 1) configs).insertionSort (· ≤ ·)).destutter (· ≠ ·) := by
  rw [epsilonClosure, List.mergeSort_eq_insertionSort]

/-- Two fields, one of them required, with a comma. -/
theorem shuffle_exact_letters :
    ∃ p e, build [byteEngine 0x61, byteEngine 0x62] [true, false] (byteEngine 0x2c) = .ok p ∧
    p.intoEngine = .ok e ∧ e.accepts [0x62, 0x2c, 0x61] = true := by
  have hsome : (build [byteEngine 0x61, byteEngine 0x62] [true, false] (byteEngine 0x2c) >>= intoEngine).toOption.isSome
    = true := by
    simp only [build, configSets, epsilonClosure_insertion]
    decide +kernel
  obtain ⟨e, h⟩ := exists_of_toOption hsome
  obtain ⟨p, hp, he⟩ := bind_ok h
  refine ⟨p, e, hp, he, (shuffle_exact (by decide +kernel) (by decide +kernel) hp he _).2 ⟨[1, 0], by decide, ?_, ?_⟩⟩
  · intro i hi
    match i, hi with
    | 0, _ => decide
    | 1, hi => cases hi
    | n + 2, hi => cases hi
  · have hfirst : Body [byteEngine 0x61, byteEngine 0x62] (byteEngine 0x2c) [1] [0x62] := .first rfl (by decide +kernel)
    have hcomma : (byteEngine 0x2c).accepts [0x2c] = true := by decide +kernel
    have hletter : (byteEngine 0x61).accepts [0x61] = true := by decide +kernel
    exact .more hfirst (by decide) (by decide) hcomma rfl hletter

end ShuffleAutomaton

end MaskForge
