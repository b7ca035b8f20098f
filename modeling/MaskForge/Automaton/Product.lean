import MaskForge.Automaton.FromRows
import MaskForge.Automaton.Language
import MaskForge.Lib.Trim
/-!
# Product — boolean combinations of engines

A product state is a tuple, one state of each engine.  The tuples reached from the starts are explored breadth first, a
tuple of DEAD alone left out; those that lead to no accepting one are dropped and the rest renumbered.
-/
namespace MaskForge

def maxProductStates : Nat := 2 ^ 16

def maxProductBranches : Nat := 256

def maxProductEdges : Nat := 2 ^ 20

def productMalformed (message : String) : CompileError := ⟨.malformed, .l3, message⟩

def productLimit : CompileError := ⟨.internalLimitExceeded, .l3, "product cap"⟩

inductive Combinator where
  | all
  | any
  | exactlyOne
  | difference
  deriving DecidableEq, Repr

def Combinator.acceptsStates (c : Combinator) (states : List Nat) (engines : List RefEngine) : Bool :=
  match c with
  | .all => (states.zip engines).all fun p => p.2.isAccepting p.1
  | .any => (states.zip engines).any fun p => p.2.isAccepting p.1
  | .exactlyOne => ((states.zip engines).filter fun p => p.2.isAccepting p.1).length == 1
  | .difference => match states, engines with
    | first :: states, e :: engines => e.isAccepting first && (states.zip engines).all fun p => !p.2.isAccepting p.1
    | _, _ => false

/-- What a combinator asks of the branches, for one text. -/
def Combinator.Accepts (c : Combinator) (branches : List RefEngine) (w : List Byte) : Prop :=
  match c with
  | .all => ∀ e ∈ branches, e.accepts w = true
  | .any => ∃ e ∈ branches, e.accepts w = true
  | .exactlyOne => (branches.countP fun e => e.accepts w) = 1
  | .difference => ∃ first rest, branches = first :: rest ∧ first.accepts w = true ∧ ∀ e ∈ rest, e.accepts w = false

structure ProductAutomaton where
  states : List ByteState
  start : Nat

namespace ProductAutomaton

/-- `usize::checked_mul` over the state counts, `usize::MAX` once it overflows. -/
def worstCaseStates (branches : List RefEngine) : Nat :=
  (branches.foldlM (fun acc e => if acc * e.stateCount ≤ usizeMax then some (acc * e.stateCount) else none) 1).getD
    usizeMax

/-- One engine's next state by a byte. -/
def nextState (e : RefEngine) (s : Nat) (b : Byte) : Nat :=
  if e.isDead s then dead else (e.consumeToken s [b]).getD dead

def nextTuple (branches : List RefEngine) (tuple : List Nat) (b : Byte) : List Nat :=
  (tuple.zip branches).map fun p => nextState p.2 p.1 b

def allDead (branches : List RefEngine) (tuple : List Nat) : Bool := (tuple.zip branches).all fun p => p.2.isDead p.1

/-- The machine of the tuples. -/
def tuples (branches : List RefEngine) (c : Combinator) (maxStates maxEdges : Nat) :
    Explore.Machine (List Nat) Byte CompileError where
  accept tuple := c.acceptsStates tuple branches
  next tuple b := .ok (if allDead branches (nextTuple branches tuple b) then none
    else some (nextTuple branches tuple b))
  room count := (checkedU32 productLimit count).map fun _ => ()
  edge count edges := if maxStates < count then .error productLimit else if maxEdges < edges then .error productLimit
  else .ok ()
  rowEnd _ := .ok ()
  lost := productLimit

def buildCapped (branches : List RefEngine) (c : Combinator) (maxStates maxEdges : Nat)
    (rejectCartesianOverCap : Bool) :
    Except CompileError ProductAutomaton :=
  if branches.isEmpty then .error (productMalformed "a product automaton needs at least one branch")
  else if maxProductBranches < branches.length then .error productLimit
  else if rejectCartesianOverCap ∧ maxStates < worstCaseStates branches then .error productLimit
  else if rejectCartesianOverCap ∧ maxEdges < min (worstCaseStates branches * 256) usizeMax then .error productLimit
  else do
    let (startId, s) ← Explore.explore (tuples branches c maxStates maxEdges) allBytes (max maxStates 1)
      (branches.map fun e => e.start)
    let live := Explore.liveRows s.rows
    let states := Explore.trim s.rows live
    let start := ((Explore.finalIds 0 live)[startId]?.join).getD 0
    if states.isEmpty then return ⟨[(false, [])], 0⟩ else return ⟨states, start⟩

def build (branches : List RefEngine) (c : Combinator) : Except CompileError ProductAutomaton :=
  buildCapped branches c maxProductStates maxProductEdges true

def buildReachable (branches : List RefEngine) (c : Combinator) : Except CompileError ProductAutomaton :=
  buildCapped branches c maxProductStates maxProductEdges false

def intoGraph (p : ProductAutomaton) : Except CompileError AutomatonGraph :=
  AutomatonGraph.fromByteStates p.states p.start

def intoEngine (p : ProductAutomaton) : Except CompileError RefEngine := do
  let g ← p.intoGraph
  RefEngine.fromGraph g

end ProductAutomaton

namespace ProductAutomaton

/-! ### Tuples -/

theorem nextState_eq (e : RefEngine) (s : Nat) (b : Byte) : nextState e s b = e.step s (e.classOfByte b) := by
  unfold nextState
  split
  · rename_i hdead
    rw [RefEngine.isDead, Bool.or_eq_true, beq_iff_eq, decide_eq_true_eq] at hdead
    rcases hdead with rfl | hout
    · exact (e.step_dead _).symm
    · exact (e.step_out_of_range _ hout).symm
  · rename_i halive
    have hs : s ≠ dead := by
      rintro rfl
      exact halive rfl
    rw [e.consumeToken_eq [b] s hs]
    show (if e.step s (e.classOfByte b) = dead then none else some (e.step s (e.classOfByte b))).getD dead = _
    by_cases hstep : e.step s (e.classOfByte b) = dead
    · rw [if_pos hstep, hstep]
      rfl
    · rw [if_neg hstep]
      rfl

/-- The tuple a word leads to. -/
def tupleAfter (branches : List RefEngine) (w : List Byte) : List Nat := branches.map fun e => e.stepBytes e.start w

section
variable {branches : List RefEngine} {c : Combinator} {maxStates maxEdges : Nat}

theorem zip_tupleAfter (branches : List RefEngine) (w : List Byte) :
    (tupleAfter branches w).zip branches = branches.map fun e => (e.stepBytes e.start w, e) := by
  induction branches with
  | nil => rfl
  | cons e branches ih => exact congrArg ((e.stepBytes e.start w, e) :: ·) ih

theorem nextTuple_tupleAfter (w : List Byte) (b : Byte) :
    nextTuple branches (tupleAfter branches w) b = tupleAfter branches (w ++ [b]) := by
  rw [nextTuple, zip_tupleAfter, List.map_map]
  apply List.map_congr_left
  intro e _
  dsimp only [Function.comp_apply]
  rw [nextState_eq, e.stepBytes_append]
  rfl

theorem allDead_tupleAfter (w : List Byte) :
    allDead branches (tupleAfter branches w) = true ↔ ∀ e ∈ branches, e.stepBytes e.start w = dead := by
  rw [allDead, zip_tupleAfter, List.all_map, List.all_eq_true]
  exact forall₂_congr fun e _ => e.isDead_stepBytes w

/-- **A tuple accepts as the branches do.** -/
theorem acceptsStates_iff (w : List Byte) :
    c.acceptsStates (tupleAfter branches w) branches = true ↔ c.Accepts branches w := by
  cases c with
  | all =>
    rw [Combinator.acceptsStates, Combinator.Accepts, zip_tupleAfter, List.all_map, List.all_eq_true]
    exact forall₂_congr fun e _ => by rw [← e.isAccepting_stepBytes]; rfl
  | any =>
    rw [Combinator.acceptsStates, Combinator.Accepts, zip_tupleAfter, List.any_map, List.any_eq_true]
    exact exists_congr fun e => and_congr_right fun _ => by rw [← e.isAccepting_stepBytes]; rfl
  | exactlyOne =>
    rw [Combinator.acceptsStates, Combinator.Accepts, zip_tupleAfter, List.filter_map, List.length_map, beq_iff_eq,
      List.countP_eq_length_filter]
    have hfun : (fun e : RefEngine => e.accepts w) = (fun p : Nat × RefEngine => p.2.isAccepting p.1) ∘ fun e =>
      (e.stepBytes e.start w, e) := by
      funext e
      exact (e.isAccepting_stepBytes w).symm
    rw [hfun]
  | difference =>
    cases branches with
    | nil => simp [Combinator.acceptsStates, Combinator.Accepts]
    | cons first rest =>
      rw [tupleAfter, List.map_cons, Combinator.acceptsStates, Bool.and_eq_true, first.isAccepting_stepBytes]
      change _ ∧ (((tupleAfter rest w).zip rest).all fun p => !p.2.isAccepting p.1) = true ↔ _
      rw [zip_tupleAfter, List.all_map, List.all_eq_true]
      constructor
      · rintro ⟨hfirst, hrest⟩
        refine ⟨first, rest, rfl, hfirst, fun e he => ?_⟩
        rw [← e.isAccepting_stepBytes]
        simpa using hrest e he
      · rintro ⟨_, _, heq, hfirst, hrest⟩
        cases heq
        refine ⟨hfirst, fun e he => ?_⟩
        have hnot := hrest e he
        rw [← e.isAccepting_stepBytes] at hnot
        simpa using hnot

/-- Branches that all reject satisfy no combinator, if there are any. -/
theorem not_accepts_of_reject (hne : branches ≠ []) {w : List Byte} (h : ∀ e ∈ branches, e.accepts w = false) :
    ¬ c.Accepts branches w := by
  cases c with
  | all =>
    intro hall
    obtain ⟨e, he⟩ := List.exists_mem_of_ne_nil _ hne
    exact Bool.false_ne_true ((h e he).symm.trans (hall e he))
  | any =>
    rintro ⟨e, he, hw⟩
    exact Bool.false_ne_true ((h e he).symm.trans hw)
  | exactlyOne =>
    intro hone
    rw [Combinator.Accepts, List.countP_eq_zero.2 fun e he => by rw [h e he]; exact Bool.false_ne_true] at hone
    exact absurd hone Nat.zero_ne_one
  | difference =>
    rintro ⟨first, rest, rfl, hw, _⟩
    exact Bool.false_ne_true ((h first List.mem_cons_self).symm.trans hw)

/-- **The machine follows the tuples**; a word it gives up on is accepted by no branch. -/
theorem accepts_follow (hne : branches ≠ []) : ∀ (w u : List Byte),
    (((Explore.follow (tuples branches c maxStates maxEdges) (tupleAfter branches u) w).map
      (tuples branches c maxStates maxEdges).accept).getD false = true ↔ c.Accepts branches (u ++ w))
  | [], u => by
    rw [List.append_nil]
    exact acceptsStates_iff u
  | b :: w, u => by
    have hassoc : u ++ b :: w = u ++ [b] ++ w := by rw [List.append_assoc]; rfl
    rw [Explore.follow]
    dsimp only [tuples]
    rw [nextTuple_tupleAfter]
    by_cases hdead : allDead branches (tupleAfter branches (u ++ [b])) = true
    · rw [if_pos hdead]
      refine ⟨fun h => absurd h Bool.false_ne_true, fun h => absurd h (not_accepts_of_reject hne fun e he => ?_)⟩
      rw [hassoc, e.accepts_eq, e.acceptsFrom_append, (allDead_tupleAfter _).1 hdead e he, e.acceptsFrom_dead]
    · rw [if_neg hdead, hassoc]
      exact accepts_follow hne w (u ++ [b])

theorem tuples_caps : Explore.Caps (tuples branches c maxStates maxEdges) (max maxStates 1) := by
  intro n edges _ hedge
  dsimp only [tuples] at hedge
  split at hedge
  · cases hedge
  · omega

/-! ### The automaton -/

/-- **The rows that are built accept what the combinator asks for.** -/
theorem buildCapped_ok {reject : Bool} {p : ProductAutomaton}
    (h : buildCapped branches c maxStates maxEdges reject = .ok p) (w : List Byte) :
    Explore.accepts p.states p.start w = true ↔ c.Accepts branches w := by
  unfold buildCapped at h
  split at h
  · cases h
  · rename_i hne
    have hne : branches ≠ [] := by simpa using hne
    split at h
    · cases h
    · split at h
      · cases h
      · split at h
        · cases h
        · obtain ⟨⟨startId, s⟩, hexplore, h⟩ := bind_ok h
          obtain ⟨rfl, hinv, hall⟩ :=
            Explore.explore_ok tuples_caps (le_max_right _ _) nodup_allBytes (Nat.le_refl _) hexplore
          have htidy := Explore.explore_tidy nodup_allBytes hexplore
          obtain ⟨hlen, hlive⟩ := Explore.liveRows_spec htidy
          have hbytes : ∀ (u : List Byte), ∀ b ∈ u, b ∈ allBytes := fun _ b _ => mem_allBytes b
          have hfirst : ∀ u, Explore.accepts s.rows 0 u = true ↔ c.Accepts branches u := by
            intro u
            rw [hinv.accepts_eq_follow hall u (hbytes u) hinv.first]
            exact accepts_follow hne u []
          -- whatever was discovered was discovered from the start
          have hback : ∀ v : Nat, (Explore.liveRows s.rows)[v]? = some true →
            (Explore.liveRows s.rows)[0]? = some true := by
            intro v hv
            have hlt := (List.getElem?_eq_some_iff.1 hv).1
            rw [hlen, hall] at hlt
            obtain ⟨u, hu⟩ := (hlive v).1 hv
            obtain ⟨u₀, hu₀⟩ := hinv.reached _ (List.getElem_mem hlt)
            refine (hlive 0).2 ⟨u₀ ++ u, ?_⟩
            rw [hinv.accepts_eq_follow hall _ (hbytes _) (List.getElem?_eq_getElem hlt)] at hu
            rw [hinv.accepts_eq_follow hall _ (hbytes _) hinv.first, Explore.follow_append, hu₀]
            exact hu
          dsimp only at h
          split at h
          · rename_i hempty
            cases h
            rw [List.isEmpty_iff, Explore.trim_eq_nil_iff hlen] at hempty
            rw [← hfirst w]
            have hnone : ¬ Explore.accepts s.rows 0 w = true := fun hw => hempty 0 ((hlive 0).2 ⟨w, hw⟩)
            refine ⟨fun hw => absurd hw ?_, fun hw => absurd hw hnone⟩
            cases w with
            | nil => exact Bool.false_ne_true
            | cons b w => exact Bool.false_ne_true
          · rename_i hsome
            cases h
            rw [List.isEmpty_iff, Explore.trim_eq_nil_iff hlen] at hsome
            simp only [not_forall, not_not] at hsome
            obtain ⟨v, hv⟩ := hsome
            have hstart := hback v hv
            dsimp only
            rw [← hfirst w, ← Explore.accepts_trim htidy w hstart, Explore.getElem?_finalIds, hstart]
            rfl

/-- **Boolean products are exact**, and both ways to build one agree. -/
theorem product_exact (branches : List RefEngine) (c : Combinator) (p : ProductAutomaton) (e : RefEngine)
    (hp : build branches c = .ok p ∨ buildReachable branches c = .ok p) (he : p.intoEngine = .ok e) :
    (∀ w, e.accepts w = true ↔ c.Accepts branches w) ∧
      ∀ p' e', build branches c = .ok p' ∨ buildReachable branches c = .ok p' → p'.intoEngine = .ok e' →
        ∀ w, e'.accepts w = e.accepts w := by
  have hexact : ∀ p e, build branches c = .ok p ∨ buildReachable branches c = .ok p → p.intoEngine = .ok e →
      ∀ w, e.accepts w = true ↔ c.Accepts branches w := by
    intro p e hp he w
    rw [byteStates_engine he]
    rcases hp with hp | hp
    · exact buildCapped_ok hp w
    · exact buildCapped_ok hp w
  refine ⟨hexact p e hp he, fun p' e' hp' he' w => ?_⟩
  rw [Bool.eq_iff_iff, hexact p' e' hp' he' w, hexact p e hp he w]

end

/-- One of two letters. -/
theorem product_exact_letters :
    ∃ p e, build [byteEngine 0x61, byteEngine 0x62] .exactlyOne = .ok p ∧ p.intoEngine = .ok e ∧
    e.accepts [0x62] = true := by
  obtain ⟨e, h⟩ := exists_of_toOption (x := build [byteEngine 0x61, byteEngine 0x62] .exactlyOne >>= intoEngine)
    (by decide +kernel)
  obtain ⟨p, hp, he⟩ := bind_ok h
  have hexact := (product_exact [byteEngine 0x61, byteEngine 0x62] .exactlyOne p e (.inl hp) he).1 [0x62]
  exact ⟨p, e, hp, he, hexact.2 (by unfold Combinator.Accepts; decide +kernel)⟩

end ProductAutomaton

end MaskForge
