import MaskForge.Structured.Cursor
/-!
# CursorLaws — what whitespace and the end of a value do to a cursor

Three laws carry the exactness of the applicators.  Whitespace never changes whether a cursor accepts; a cursor that
cannot be extended takes nothing but whitespace; and a cursor that has read something accepts or can be extended.  The
third is what the pruning of a combinator relies on, and a regular branch has it only if its engine never waits for
whitespace alone in a state that does not accept.
-/
namespace MaskForge

/-! ## Engines -/

namespace RefEngine

variable {e : RefEngine} {s q : Nat} {b : Byte}

theorem stepByte_eq (e : RefEngine) (s : Nat) (b : Byte) : e.stepByte s b = e.consumeToken s [b] := by
  unfold stepByte
  cases h : e.consumeToken s [b] with
  | none => rfl
  | some q =>
    unfold consumeToken at h
    split at h
    · cases h
    · split at h
      · cases h
      · rename_i hs hstep
        rw [consumeToken] at h
        cases h
        have hlt := e.step_lt hstep
        have hq : e.isDead (e.step s (e.classOfByte b)) = false := by
          unfold isDead
          simp only [Bool.or_eq_false_iff, beq_eq_false_iff_ne, decide_eq_false_iff_not]
          exact ⟨hstep, by omega⟩
        simp [Option.filter, hq]

theorem accepts_iff (w : List Byte) :
    e.accepts w = true ↔ ∃ q, e.consumeToken e.start w = some q ∧ e.isAccepting q = true := by
  suffices h : ∀ w s, accepts.go e s w = true ↔ ∃ q, e.consumeToken s w = some q ∧ e.isAccepting q = true from
    h w e.start
  intro w
  induction w with
  | nil =>
    intro s
    rw [accepts.go]
    constructor
    · intro h
      exact ⟨s, rfl, h⟩
    · rintro ⟨q, hq, hacc⟩
      cases hq
      exact hacc
  | cons b w ih =>
    intro s
    rw [accepts.go, consumeToken]
    by_cases hs : s = dead
    · simp [hs]
    · rw [if_neg hs, if_neg hs, ih]
      by_cases hstep : e.step s (e.classOfByte b) = dead
      · rw [if_pos hstep, hstep]
        constructor
        · rintro ⟨q, hq, hacc⟩
          cases w with
          | nil =>
            cases hq
            have hdead := e.wf.deadRejects
            unfold isAccepting at hacc
            rw [hdead] at hacc
            cases hacc
          | cons x w => exact absurd hq (by rw [e.consumeToken_dead (by simp)]; simp)
        · rintro ⟨q, hq, -⟩
          cases hq
      · rw [if_neg hstep]

/-- What the compiled engines of regular and number nodes are built to read: JSON texts in whitespace, without states
that lead nowhere. -/
structure ReadsJson (e : RefEngine) : Prop where
  trims : ∀ w s, e.consumeToken e.start w = some s → s ≠ dead →
    ∃ r q, e.consumeToken s r = some q ∧ e.isAccepting q = true
  rejectsEmpty : e.accepts [] = false
  trailing : ∀ w b, isWs b = true → e.accepts (w ++ [b]) = e.accepts w
  ends : ∀ w b r, e.accepts w = true → isWs b = true → e.accepts (w ++ b :: r) = true → ∀ x ∈ r, isWs x = true

/-- The state an engine is in after a text. -/
def Reads (e : RefEngine) (w : List Byte) (s : Nat) : Prop := e.consumeToken e.start w = some s

theorem Reads.accepts {w : List Byte} (h : e.Reads w s) : e.accepts w = e.isAccepting s := by
  rw [Bool.eq_iff_iff, accepts_iff]
  constructor
  · rintro ⟨q, hq, hacc⟩
    rw [Reads.eq_1] at h
    rw [h] at hq
    cases hq
    exact hacc
  · intro hacc
    exact ⟨s, h, hacc⟩

theorem Reads.step {w : List Byte} (h : e.Reads w s) (hb : e.stepByte s b = some q) : e.Reads (w ++ [b]) q := by
  unfold Reads at h ⊢
  rw [e.consumeToken_append, h, Option.bind_some, ← stepByte_eq, hb]

theorem stepByte_ne_dead (h : e.stepByte s b = some q) : q ≠ dead := by
  rintro rfl
  rw [stepByte] at h
  have := (Option.filter_eq_some_iff.1 h).2
  simp [isDead] at this

/-- Whitespace keeps an engine accepting, and never makes it. -/
theorem ReadsJson.trailing_step (he : e.ReadsJson) {w : List Byte} (h : e.Reads w s) (hb : isWs b = true) :
    (e.stepByte s b).any e.isAccepting = e.isAccepting s := by
  rw [← h.accepts, ← he.trailing w b hb]
  cases hstep : e.stepByte s b with
  | some q => exact (h.step hstep).accepts.symm
  | none =>
    refine (Bool.eq_false_iff.2 fun hacc => ?_).symm
    obtain ⟨q, hq, -⟩ := (accepts_iff _).1 hacc
    rw [e.consumeToken_append, h, Option.bind_some, ← stepByte_eq, hstep] at hq
    cases hq

theorem consumeToken_lt {w : List Byte} :
    ∀ {s q : Nat}, s < e.stateCount → e.consumeToken s w = some q → q < e.stateCount := by
  induction w with
  | nil =>
    intro s q hs h
    cases h
    exact hs
  | cons b w ih =>
    intro s q hs h
    rw [consumeToken] at h
    split at h
    · cases h
    · split at h
      · cases h
      · rename_i hstep
        exact ih (e.step_lt hstep) h

theorem Reads.lt {w : List Byte} (h : e.Reads w s) : s < e.stateCount := consumeToken_lt e.wf.startLt h

variable {exit : Nat → List Byte}

end RefEngine
namespace Cursor

variable {P : Parts}

/-! ## Lists of cursors -/

theorem acceptingCount_eq : ∀ cs : List (Cursor P), acceptingCount cs = cs.countP accepting
  | [] => by rw [acceptingCount, List.countP_nil]
  | c :: cs => by
    rw [acceptingCount, acceptingCount_eq cs, List.countP_cons, Nat.add_comm]

theorem anyExtends_eq : ∀ cs : List (Cursor P), anyExtends cs = cs.any canExtendValue
  | [] => by rw [anyExtends, List.any_nil]
  | c :: cs => by rw [anyExtends, anyExtends_eq cs, List.any_cons]

theorem pushAll_eq (b : Byte) : ∀ cs : List (Cursor P), pushAll cs b = cs.map (·.push b)
  | [] => by rw [pushAll, List.map_nil]
  | c :: cs => by rw [pushAll, pushAll_eq b cs, List.map_cons]

/-- A cursor after a byte; one that refuses it is dead. -/
def after (b : Byte) (c : Cursor P) : Cursor P := (c.push b).getD .dead

theorem accepting_after (b : Byte) (c : Cursor P) : (c.after b).accepting = (c.push b).any accepting := by
  unfold after
  cases c.push b with
  | none =>
    rw [Option.getD_none, accepting]
    rfl
  | some c' => rfl

theorem accepting_combinator (kind : CombinatorKind) (nodes : List Nat) (cs : List (Cursor P)) :
    (combinator kind nodes cs).accepting = combinatorAccepts kind (cs.countP accepting) cs.length := by
  rw [accepting, acceptingCount_eq]

theorem canExtendValue_combinator (kind : CombinatorKind) (nodes : List Nat) (cs : List (Cursor P)) :
    (combinator kind nodes cs).canExtendValue = cs.any canExtendValue := by
  rw [canExtendValue, anyExtends_eq]

/-- The step of a combinator by the cursors after the byte. -/
theorem push_combinator (kind : CombinatorKind) (nodes : List Nat) (cs : List (Cursor P)) (b : Byte) :
    (combinator kind nodes cs).push b =
      if combinatorBoundary kind (cs.countP (fun c => (c.push b).isSome)) cs.length then
        if (combinator kind nodes cs).accepting then closeBefore b else none
      else if !(combinator kind nodes (cs.map (after b))).accepting && !branchesExtend kind nodes
      (cs.map (after b)) then
        none
      else some (.combinator kind nodes (cs.map (after b))) := by
  have hmap : (cs.map (fun c => c.push b)).map (fun o => o.getD .dead) = cs.map (after b) := by
    rw [List.map_map]
    rfl
  rw [push, pushAll_eq, finishCombinator, accepting_combinator, accepting_combinator, acceptingCount_eq,
    acceptingCount_eq]
  simp only [List.length_map, List.countP_map, hmap]
  rfl

theorem branchesExtend_any {kind : CombinatorKind} {nodes : List Nat} {cs : List (Cursor P)}
    (h : branchesExtend kind nodes cs = true) : cs.any canExtendValue = true := by
  unfold branchesExtend at h
  obtain ⟨p, hp, h⟩ := List.any_eq_true.1 h
  exact List.any_eq_true.2 ⟨p.2, (List.of_mem_zip hp).2, (Bool.and_eq_true_iff.1 h).1⟩

/-- A combinator that accepts is not at the end of its value while its accepting branches live. -/
theorem boundary_of_accepting {kind : CombinatorKind} {cs : List (Cursor P)} {live : Cursor P → Bool}
    (hacc : combinatorAccepts kind (cs.countP accepting) cs.length = true)
    (hlive : ∀ c ∈ cs, c.accepting = true → live c = true) :
    combinatorBoundary kind (cs.countP live) cs.length = false := by
  have hle : cs.countP accepting ≤ cs.countP live := List.countP_mono_left hlive
  have hlen : cs.countP live ≤ cs.length := List.countP_le_length
  cases kind with
  | all =>
    unfold combinatorAccepts at hacc
    simp only [beq_iff_eq] at hacc
    unfold combinatorBoundary
    simp only [bne_eq_false_iff_eq]
    omega
  | any =>
    unfold combinatorAccepts at hacc
    simp only [decide_eq_true_eq] at hacc
    unfold combinatorBoundary
    simp only [beq_eq_false_iff_ne]
    omega
  | exactlyOne =>
    unfold combinatorAccepts at hacc
    simp only [beq_iff_eq] at hacc
    unfold combinatorBoundary
    simp only [beq_eq_false_iff_ne]
    omega

/-! ## Cursors in the middle of a value -/

/-- A cursor after a text. -/
def afterAll : List Byte → Cursor P → Cursor P
  | [], c => c
  | b :: w, c => afterAll w (c.after b)

mutual

/-- Whitespace alone continues the cursor, and its value is not over: `can_extend_value` takes the whitespace of a
string literal for the whitespace behind a value. -/
def waits : Cursor P → Bool
  | .regular e s => s != MaskForge.dead && !e.isAccepting s && !e.canExtendValue s
  | .combinator _ _ cursors => !anyExtends cursors && anyWaits cursors
  | _ => false

def anyWaits : List (Cursor P) → Bool
  | [] => false
  | c :: cs => c.waits || anyWaits cs

end

/-- The guard of `route_combinator_byte`, by the branches after the byte: the number of survivors does not end the
value, the survivors do not accept, and no branch is held to be extendable. -/
def givesUp (kind : CombinatorKind) (nodes : List Nat) (cs : List (Cursor P)) : Bool :=
  !combinatorBoundary kind (cs.countP isActive) cs.length && !combinatorAccepts kind (cs.countP accepting) cs.length &&
    !branchesExtend kind nodes cs

/-- **The guard never gives up on a branch that waits**, whatever the branches read. -/
def Guarded (kind : CombinatorKind) (nodes : List Nat) (cs : List (Cursor P)) : Prop :=
  ∀ w, w ≠ [] → givesUp kind nodes (cs.map (afterAll w)) = true → ∀ c ∈ cs, (c.afterAll w).waits = false

theorem Guarded.after {kind : CombinatorKind} {nodes : List Nat} {cs : List (Cursor P)} (h : Guarded kind nodes cs)
    (b : Byte) : Guarded kind nodes (cs.map (after b)) := by
  intro w hw hgive c hc
  obtain ⟨c0, hc0, rfl⟩ := List.mem_map.1 hc
  refine h (b :: w) (by simp) ?_ c0 hc0
  rw [List.map_map] at hgive
  exact hgive

/-- What follows an arbitrary JSON value: a phase of a scalar, the frames of a container or a string, or the end. -/
def Tracks (c : Cursor P) : Prop := (∃ phase, c = .scalar phase) ∨ (∃ k, c = .frames k) ∨ c = .closed

theorem Tracks.not_waits {c : Cursor P} (h : c.Tracks) : c.waits = false := by
  obtain ⟨phase, rfl⟩ | ⟨k, rfl⟩ | rfl := h <;> rfl

/-! ## Sound cursors -/

/-- What every cursor of a session keeps; the flag tells whether it has read a byte. -/
inductive Ok : Bool → Cursor P → Prop where
  | dead {p : Bool} : Ok p .dead
  | closed : Ok true .closed
  | regular {p : Bool} {e : RefEngine} {s : Nat} (w : List Byte) (he : e.ReadsJson) (hr : e.Reads w s)
      (hp : p = true → w ≠ [] ∧ s ≠ MaskForge.dead) : Ok p (.regular e s)
  | number {p : Bool} {e : RefEngine} {plan : NumberPlan} {s : Nat} {acc : NumberAccumulator} (w : List Byte)
      (he : e.ReadsJson) (hr : e.Reads w s) (hv : w ≠ [] → numberPrefixSignViable acc plan = true) :
      Ok p (.number e plan s acc)
  | stringEnum {p : Bool} {plan : StringEnumPlan} {f : StringEnumFrame P.Decoder} (decoded : List Byte)
      (hs : plan.Sorted) (hlen : f.decodedBytes = decoded.length) (hrun : plan.Run decoded f.lo f.hi) :
      Ok p (.stringEnum plan f)
  | scalar {p : Bool} {phase : ScalarPhase} : Ok p (.scalar phase)
  | frames {p : Bool} {k : P.Frames} : Ok p (.frames k)
  | combinator {p : Bool} {kind : CombinatorKind} {nodes : List Nat} {cs : List (Cursor P)} (hne : cs ≠ [])
      (hlen : nodes.length = cs.length) (h : ∀ c ∈ cs, Ok p c)
      (hsame : kind = .exactlyOne → ∀ n c c', (n, c) ∈ nodes.zip cs → (n, c') ∈ nodes.zip cs → c.isActive = true →
        c'.isActive = true → c = c') (hguard : Guarded kind nodes cs)
      (hset : p = true → (Cursor.combinator kind nodes cs).accepting = true ∨
        (Cursor.combinator kind nodes cs).canExtendValue = true) : Ok p (.combinator kind nodes cs)
  | negation {p : Bool} {text inner : Cursor P} (ht : Ok p text) (htrack : text.Tracks) (hi : Ok p inner)
      (hset : p = true → (Cursor.negation text inner).accepting = true ∨ text.canExtendValue = true) :
      Ok p (.negation text inner)
  | unevaluated {p : Bool} {plan : UnevaluatedPlan} {scope tracker : Cursor P} {instanceKind : Option UnevaluatedKind}
      {read : List Byte} (hs : Ok p scope) (ht : Ok p tracker)
      (hany : (∃ phase, tracker = .scalar phase) ∨ ∃ k, tracker = .frames k)
      (hinst : instanceKind ≠ none → ∃ k, tracker = .frames k) : Ok p
        (.unevaluated plan scope tracker instanceKind read)

/-! ## Whitespace -/

theorem closeBefore_ws {b : Byte} (hb : isWs b = true) : closeBefore b = some (Cursor.closed (P := P)) := if_pos hb

theorem any_closeBefore {b : Byte} (hb : isWs b = true) : (closeBefore (P := P) b).any accepting = true := by
  rw [closeBefore_ws hb]
  rfl

theorem ws_number {e : RefEngine} {plan : NumberPlan} {s : Nat} {acc : NumberAccumulator} {w : List Byte} {b : Byte}
    (he : e.ReadsJson) (hr : e.Reads w s) (hv : w ≠ [] → numberPrefixSignViable acc plan = true) (hb : isWs b = true) :
    (pushNumber (P := P) e plan s acc b).any accepting = (e.isAccepting s && numberAccepts acc plan) := by
  have htrail := he.trailing_step hr hb
  unfold pushNumber
  cases hstep : e.stepByte s b with
  | none =>
    rw [hstep] at htrail
    rw [← htrail]
    rfl
  | some q =>
    rw [hstep, Option.any_some] at htrail
    obtain ⟨hacc, hviable⟩ := numberAccepts_push_ws acc plan ((plan.multipleOf.map Prod.fst).getD 1) hb
    dsimp only
    rw [hviable]
    split
    · rw [Option.any_some, accepting, hacc, htrail]
    · rename_i hnot
      -- an engine that accepts has read a byte, so the sign was viable
      cases hs : e.isAccepting s with
      | false => rfl
      | true =>
        refine absurd (hv fun hw => ?_) hnot
        have := he.rejectsEmpty
        rw [← hw, hr.accepts, hs] at this
        cases this

theorem ws_stringEnum {plan : StringEnumPlan} {f : StringEnumFrame P.Decoder} {b : Byte} (hb : isWs b = true) :
    (pushStringEnum plan f b).any accepting = false := by
  have hquote : b ≠ 0x22 := by
    rintro rfl
    cases hb
  unfold pushStringEnum
  split
  · rfl
  · rw [if_neg (fun h => hquote h.1)]
    split
    · rfl
    · split <;> rfl
    · cases narrowAll plan _ (f.lo, f.hi, f.decodedBytes) <;> rfl

/-- Whitespace before, after or inside a scalar. -/
theorem ws_scalar (phase : ScalarPhase) {b : Byte} (hb : isWs b = true) :
    pushScalar (P := P) phase b =
      if phase = .beforeValue then some (.scalar phase) else if scalarIsComplete phase then some .closed else none := by
  unfold pushScalar
  by_cases hbefore : phase = .beforeValue
  · rw [if_pos ⟨hbefore, hb⟩, if_pos hbefore]
  · rw [if_neg (fun h => hbefore h.1), if_neg hbefore]
    by_cases hcomplete : scalarIsComplete phase = true
    · rw [stepScalar_ws hcomplete hb, if_pos hcomplete]
      exact closeBefore_ws hb
    · rw [stepScalar_incomplete hbefore hcomplete hb, if_neg hcomplete]

theorem ws_frames (k : P.Frames) {b : Byte} (hb : isWs b = true) : (pushFrames k b).any accepting = false := by
  unfold pushFrames
  cases hstep : P.step k b with
  | none => rfl
  | some next =>
    cases next with
    | none =>
      rw [P.closes k b hstep] at hb
      cases hb
    | some k' => rfl

theorem noteInstance_ws {tracker : Cursor P} {instanceKind : Option UnevaluatedKind} {b : Byte} (hb : isWs b = true) :
    noteInstance tracker instanceKind b = instanceKind := by
  unfold noteInstance
  split
  · rcases isWs_cases hb with rfl | rfl | rfl | rfl <;> rfl
  · rfl

/-- An unevaluated frame accepts on whitespace only where its instance is a scalar, which then ends. -/
theorem ws_unevaluated {plan : UnevaluatedPlan} {scope tracker : Cursor P} {instanceKind : Option UnevaluatedKind}
    {read : List Byte} {b : Byte} (hany : (∃ phase, tracker = .scalar phase) ∨ ∃ k, tracker = .frames k)
    (hinst : instanceKind ≠ none → ∃ k, tracker = .frames k) (ihs : (scope.push b).any accepting = scope.accepting)
    (hb : isWs b = true) :
    (finishUnevaluated plan scope tracker instanceKind read (scope.push b) (tracker.push b) b).any accepting =
      (unevaluated plan scope tracker instanceKind read).accepting := by
  rcases hany with ⟨phase, rfl⟩ | ⟨k, rfl⟩
  · have hnone : instanceKind = none := by
      by_contra hne
      obtain ⟨k, hk⟩ := hinst hne
      cases hk
    subst hnone
    rw [push, ws_scalar phase hb, accepting, accepting, ← ihs]
    unfold finishUnevaluated
    by_cases hbefore : phase = .beforeValue
    · subst hbefore
      cases scope.push b <;> simp [isClosed, accepting, scalarIsComplete]
    · by_cases hcomplete : scalarIsComplete phase = true
      · cases scope.push b with
        | none => simp [hbefore, hcomplete]
        | some scope' => cases hacc : scope'.accepting <;> simp [hbefore, hcomplete, isClosed, accepting, hacc]
      · cases scope.push b <;> simp [hbefore, hcomplete, accepting]
  · rw [push, accepting, accepting]
    unfold finishUnevaluated pushFrames
    cases hstep : P.step k b with
    | none => cases scope.push b <;> simp [accepting]
    | some next =>
      cases next with
      | none =>
        rw [P.closes k b hstep] at hb
        cases hb
      | some k' =>
        cases scope.push b with
        | none => simp
        | some scope' =>
          simp only [Option.map_some, isClosed, Bool.false_eq_true, if_false]
          split
          · rfl
          · split
            · rfl
            · rw [Option.any_some, accepting, accepting, Bool.false_and, Bool.false_and, Bool.false_and, Bool.false_and]

/-- **Whitespace never changes whether a cursor accepts.** -/
theorem Ok.ws {p : Bool} {c : Cursor P} (h : Ok p c) {b : Byte} (hb : isWs b = true) :
    (c.push b).any accepting = c.accepting := by
  induction h with
  | dead => rfl
  | closed => exact any_closeBefore hb
  | regular w he hr hp =>
    rw [push, pushRegular, Option.any_map]
    exact he.trailing_step hr hb
  | number w he hr hv => exact ws_number he hr hv hb
  | stringEnum decoded hs hlen hrun => exact ws_stringEnum hb
  | @scalar p phase =>
    rw [push, ws_scalar phase hb, accepting]
    split
    · rename_i hphase
      subst hphase
      rfl
    · cases scalarIsComplete phase <;> rfl
  | @frames p k => exact ws_frames k hb
  | @combinator p kind nodes cs hne hlen h hsame hguard hset ih =>
    have hcount : (cs.map (after b)).countP accepting = cs.countP accepting := by
      rw [List.countP_map]
      refine List.countP_congr fun c hc => ?_
      rw [Function.comp_apply, accepting_after, ih c hc]
    have hsame' : (Cursor.combinator kind nodes (cs.map (after b))).accepting =
      (Cursor.combinator kind nodes cs).accepting := by
      rw [accepting_combinator, accepting_combinator, hcount, List.length_map]
    rw [push_combinator, hsame']
    cases hacc : (Cursor.combinator kind nodes cs).accepting with
    | true =>
      have hboundary : combinatorBoundary kind (cs.countP (fun c => (c.push b).isSome)) cs.length = false := by
        refine boundary_of_accepting (accepting_combinator kind nodes cs ▸ hacc) fun c hc hcacc => ?_
        have := ih c hc
        rw [hcacc] at this
        exact Option.isSome_of_any this
      rw [hboundary]
      simp only [Bool.false_eq_true, if_false, Bool.not_true, Bool.false_and, Option.any_some]
      rw [hsame', hacc]
    | false =>
      split
      · rfl
      · split
        · rfl
        · rw [Option.any_some, hsame', hacc]
  | @negation p text inner ht htrack hi hset iht ihi =>
    rw [push, accepting, ← iht, ← ihi]
    unfold finishNegation
    cases htext : text.push b with
    | none =>
      rw [htext] at iht
      rw [← iht]
      rfl
    | some text' =>
      cases hinner : inner.push b with
      | none =>
        rw [Option.any_some, accepting, accepting]
        rfl
      | some inner' =>
        dsimp only
        split
        · rename_i hprune
          simp only [Bool.and_eq_true, Bool.not_eq_true'] at hprune
          rw [Option.any_some, Option.any_some, hprune.1]
          rfl
        · rfl
  | @unevaluated p plan scope tracker instanceKind read hs ht hany hinst ihs iht =>
    rw [push, noteInstance_ws hb]
    exact ws_unevaluated hany hinst ihs hb

/-! ## Reading on -/

theorem StringEnumFrame.extends {plan : StringEnumPlan} {f : StringEnumFrame P.Decoder} {decoded : List Byte}
    (hs : plan.Sorted) (hlen : f.decodedBytes = decoded.length) (hrun : plan.Run decoded f.lo f.hi) :
    (Cursor.stringEnum plan f).canExtendValue = true := by
  rw [canExtendValue, hlen]
  rcases hrun.goes_on hs with h | h <;> simp [h]

/-- **A cursor that has read something accepts, can be extended or waits.** -/
theorem Ok.settled {c : Cursor P} (h : Ok true c) (hc : c ≠ .dead) (hw : c.waits = false) :
    c.accepting = true ∨ c.canExtendValue = true := by
  cases h with
  | dead => exact absurd rfl hc
  | closed => exact .inl rfl
  | @regular _ e s w he hr hp =>
    rw [waits, bne_iff_ne.2 (hp rfl).2, Bool.true_and] at hw
    rw [accepting, canExtendValue]
    cases hacc : e.isAccepting s with
    | true => exact .inl rfl
    | false => exact .inr (by simpa [hacc] using hw)
  | number w he hr hv => exact .inr rfl
  | stringEnum decoded hs hlen hrun => exact .inr (StringEnumFrame.extends hs hlen hrun)
  | @scalar _ phase =>
    by_cases hdone : phase = .literalDone
    · subst hdone
      exact .inl rfl
    · exact .inr (bne_iff_ne.2 hdone)
  | frames => exact .inr rfl
  | combinator hne hlen h hsame hguard hset => exact hset rfl
  | negation ht htrack hi hset =>
    rcases hset rfl with h | h
    · exact .inl h
    · exact .inr h
  | unevaluated hs ht hany hinst => exact .inr rfl

theorem closeBefore_some {b : Byte} {c : Cursor P} (h : closeBefore b = some c) : isWs b = true ∧ c = .closed := by
  unfold closeBefore at h
  split at h
  · rename_i hb
    exact ⟨hb, (Option.some.inj h).symm⟩
  · cases h

theorem Reads.ne_nil (w : List Byte) (b : Byte) : w ++ [b] ≠ [] := List.append_ne_nil_of_right_ne_nil _ (by simp)

theorem narrowAll_run {plan : StringEnumPlan} (hs : plan.Sorted) : ∀ (bs decoded : List Byte) (lo hi : Nat)
    {r : Nat × Nat × Nat}, plan.Run decoded lo hi → narrowAll plan bs (lo, hi, decoded.length) = some r →
    ∃ decoded', r.2.2 = decoded'.length ∧ plan.Run decoded' r.1 r.2.1
  | [], decoded, lo, hi, r, h, hr => by
    cases hr
    exact ⟨decoded, rfl, h⟩
  | b :: bs, decoded, lo, hi, r, h, hr => by
    rw [narrowAll] at hr
    obtain ⟨⟨lo', hi'⟩, hn, hr⟩ := Option.bind_eq_some_iff.1 hr
    have hlen : decoded.length + 1 = (decoded ++ [b]).length := by simp
    rw [hlen] at hr
    exact narrowAll_run hs bs (decoded ++ [b]) lo' hi' (h.narrow hs hn) hr

theorem ok_pushStringEnum {plan : StringEnumPlan} {f : StringEnumFrame P.Decoder} {decoded : List Byte} {b : Byte}
    {c' : Cursor P} (hs : plan.Sorted) (hlen : f.decodedBytes = decoded.length) (hrun : plan.Run decoded f.lo f.hi)
    (h : pushStringEnum plan f b = some c') : Ok true c' ∧ c' ≠ .dead := by
  have hok : ∀ f' : StringEnumFrame P.Decoder, some (Cursor.stringEnum plan f') = some c' →
      f'.decodedBytes = f.decodedBytes → f'.lo = f.lo → f'.hi = f.hi → Ok true c' ∧ c' ≠ .dead := by
    intro f' h4 h1 h2 h3
    cases h4
    exact ⟨.stringEnum decoded hs (h1.trans hlen) (h2 ▸ h3 ▸ hrun), by simp⟩
  unfold pushStringEnum at h
  split at h
  · split at h
    · exact hok _ h rfl rfl rfl
    · split at h
      · exact hok _ h rfl rfl rfl
      · cases h
  · split at h
    · split at h
      · cases h
        exact ⟨.closed, by simp⟩
      · cases h
    · split at h
      · cases h
      · split at h
        · exact hok _ h rfl rfl rfl
        · cases h
      · obtain ⟨r, hr, rfl⟩ := Option.map_eq_some_iff.1 h
        rw [hlen] at hr
        obtain ⟨decoded', hlen', hrun'⟩ := narrowAll_run hs _ decoded _ _ hrun hr
        exact ⟨.stringEnum decoded' hs hlen' hrun', by simp⟩

theorem ok_pushScalar {phase : ScalarPhase} {b : Byte} {c' : Cursor P} (h : pushScalar phase b = some c') :
    (∃ phase', c' = .scalar phase') ∨ (∃ k, c' = .frames k) ∨ c' = .closed := by
  unfold pushScalar at h
  split at h
  · exact .inl ⟨phase, (Option.some.inj h).symm⟩
  · split at h
    · exact .inl ⟨_, (Option.some.inj h).symm⟩
    · exact .inr (.inl ⟨_, (Option.some.inj h).symm⟩)
    · exact .inr (.inl ⟨_, (Option.some.inj h).symm⟩)
    · exact .inr (.inl ⟨_, (Option.some.inj h).symm⟩)
    · exact .inr (.inr (closeBefore_some h).2)
    · cases h

theorem ok_pushFrames {k : P.Frames} {b : Byte} {c' : Cursor P} (h : pushFrames k b = some c') :
    (∃ k', c' = .frames k') ∨ c' = .closed := by
  obtain ⟨next, -, rfl⟩ := Option.map_eq_some_iff.1 h
  cases next with
  | none => exact .inr rfl
  | some k' => exact .inl ⟨k', rfl⟩

theorem Tracks.push {c c' : Cursor P} {b : Byte} (h : c.Tracks) (hpush : c.push b = some c') : c'.Tracks := by
  obtain ⟨phase, rfl⟩ | ⟨k, rfl⟩ | rfl := h
  · exact ok_pushScalar hpush
  · exact .inr (ok_pushFrames hpush)
  · exact .inr (.inr (closeBefore_some hpush).2)

theorem isActive_after {c : Cursor P} {b : Byte} (h : (c.after b).isActive = true) : c.isActive = true := by
  cases c with
  | dead => cases h
  | _ => rfl

/-- Branches in one state stay in one state. -/
theorem same_after {nodes : List Nat} {cs : List (Cursor P)} {b : Byte}
    (hsame : ∀ n c c', (n, c) ∈ nodes.zip cs → (n, c') ∈ nodes.zip cs → c.isActive = true →
      c'.isActive = true → c = c') :
    ∀ n c c', (n, c) ∈ nodes.zip (cs.map (after b)) → (n, c') ∈ nodes.zip (cs.map (after b)) → c.isActive = true →
      c'.isActive = true → c = c' := by
  intro n c c' hc hc' hact hact'
  rw [List.zip_map_right] at hc hc'
  obtain ⟨⟨n1, c1⟩, hmem1, heq1⟩ := List.mem_map.1 hc
  obtain ⟨⟨n2, c2⟩, hmem2, heq2⟩ := List.mem_map.1 hc'
  cases heq1
  cases heq2
  rw [hsame _ c1 c2 hmem1 hmem2 (isActive_after hact) (isActive_after hact')]

/-- What an unevaluated frame keeps of its tracker. -/
theorem tracked {tracker tracker' : Cursor P} {instanceKind : Option UnevaluatedKind} {b : Byte}
    (hany : (∃ phase, tracker = .scalar phase) ∨ ∃ k, tracker = .frames k)
    (hinst : instanceKind ≠ none → ∃ k, tracker = .frames k) (hpush : tracker.push b = some tracker')
    (hopen : tracker'.isClosed = false) :
    ((∃ phase, tracker' = .scalar phase) ∨ ∃ k, tracker' = .frames k) ∧
      (noteInstance tracker instanceKind b ≠ none → ∃ k, tracker' = .frames k) := by
  rcases hany with ⟨phase, rfl⟩ | ⟨k, rfl⟩
  · have hnone : instanceKind = none := by
      by_contra hne
      obtain ⟨k, hk⟩ := hinst hne
      cases hk
    subst hnone
    rw [push] at hpush
    refine ⟨?_, fun hnote => ?_⟩
    · rcases ok_pushScalar hpush with h | h | rfl
      · exact .inl h
      · exact .inr h
      · cases hopen
    · -- an instance is noted on an opening bracket, which starts a container
      unfold noteInstance at hnote
      split at hnote
      · rename_i hbefore _
        cases hbefore
        split at hnote
        · rename_i hb
          subst hb
          cases hpush
          exact ⟨_, rfl⟩
        · split at hnote
          · rename_i hb
            subst hb
            cases hpush
            exact ⟨_, rfl⟩
          · exact absurd rfl hnote
      · exact absurd rfl hnote
  · rw [push] at hpush
    rcases ok_pushFrames hpush with h | rfl
    · exact ⟨.inr h, fun _ => h⟩
    · cases hopen

/-- **Reading a byte keeps a cursor sound.** -/
theorem Ok.push {p : Bool} {c c' : Cursor P} {b : Byte} (h : Ok p c) (hpush : c.push b = some c') :
    Ok true c' ∧ c' ≠ .dead := by
  induction h generalizing c' with
  | dead => cases hpush
  | closed =>
    obtain ⟨-, rfl⟩ := closeBefore_some hpush
    exact ⟨.closed, by simp⟩
  | @regular _ e s w he hr hread =>
    rw [Cursor.push, pushRegular] at hpush
    obtain ⟨q, hq, rfl⟩ := Option.map_eq_some_iff.1 hpush
    exact ⟨.regular (w ++ [b]) he (hr.step hq) fun _ => ⟨Reads.ne_nil w b, RefEngine.stepByte_ne_dead hq⟩, by simp⟩
  | @number _ e plan s acc w he hr hv =>
    rw [Cursor.push, pushNumber] at hpush
    split at hpush
    · rename_i q hq
      dsimp only at hpush
      split at hpush
      · rename_i hviable
        cases hpush
        exact ⟨.number (w ++ [b]) he (hr.step hq) fun _ => hviable, by simp⟩
      · cases hpush
    · split at hpush
      · obtain ⟨-, rfl⟩ := closeBefore_some hpush
        exact ⟨.closed, by simp⟩
      · cases hpush
  | stringEnum decoded hs hlen hrun => exact ok_pushStringEnum hs hlen hrun hpush
  | scalar =>
    rcases ok_pushScalar hpush with ⟨phase, rfl⟩ | ⟨k, rfl⟩ | rfl
    · exact ⟨.scalar, by simp⟩
    · exact ⟨.frames, by simp⟩
    · exact ⟨.closed, by simp⟩
  | frames =>
    rcases ok_pushFrames hpush with ⟨k, rfl⟩ | rfl
    · exact ⟨.frames, by simp⟩
    · exact ⟨.closed, by simp⟩
  | @combinator p kind nodes cs hne hlen h hsame hguard hset ih =>
    rw [push_combinator] at hpush
    split at hpush
    · split at hpush
      · obtain ⟨-, rfl⟩ := closeBefore_some hpush
        exact ⟨.closed, by simp⟩
      · cases hpush
    · split at hpush
      · cases hpush
      · rename_i hkeep
        cases hpush
        refine ⟨.combinator (by simpa using hne) (by simpa using hlen) ?_ ?_ (hguard.after b) fun _ => ?_, by simp⟩
        · intro c hc
          obtain ⟨c0, hc0, rfl⟩ := List.mem_map.1 hc
          rw [after]
          cases hstep : c0.push b with
          | none => exact .dead
          | some c1 => exact (ih c0 hc0 hstep).1
        · exact fun hkind => same_after (hsame hkind)
        · simp only [Bool.and_eq_true, Bool.not_eq_true', not_and, Bool.not_eq_false] at hkeep
          cases hacc : (Cursor.combinator kind nodes (cs.map (after b))).accepting with
          | true => exact .inl rfl
          | false =>
            refine .inr ?_
            rw [canExtendValue_combinator]
            exact branchesExtend_any (hkeep hacc)
  | @negation p text inner ht htrack hi hset iht ihi =>
    rw [Cursor.push, finishNegation.eq_def] at hpush
    cases htext : text.push b with
    | none =>
      rw [htext] at hpush
      dsimp only at hpush
      split at hpush
      · obtain ⟨-, rfl⟩ := closeBefore_some hpush
        exact ⟨.closed, by simp⟩
      · cases hpush
    | some text' =>
      obtain ⟨htext', hlive⟩ := iht htext
      rw [htext] at hpush
      cases hinner : inner.push b with
      | none =>
        rw [hinner] at hpush
        cases hpush
        refine ⟨.negation htext' (htrack.push htext) .dead fun _ => ?_, by simp⟩
        rw [accepting, accepting, Bool.not_false, Bool.and_true]
        exact htext'.settled hlive (htrack.push htext).not_waits
      | some inner' =>
        rw [hinner] at hpush
        dsimp only at hpush
        split at hpush
        · cases hpush
        · rename_i hkeep
          cases hpush
          refine ⟨.negation htext' (htrack.push htext) (ihi hinner).1 fun _ => ?_, by simp⟩
          rw [accepting]
          simp only [Bool.and_eq_true, Bool.not_eq_true', not_and, Bool.not_eq_false] at hkeep
          cases hacc : text'.accepting && !inner'.accepting with
          | true => exact .inl rfl
          | false => exact .inr (hkeep hacc)
  | @unevaluated p plan scope tracker instanceKind read hs ht hany hinst ihs iht =>
    rw [Cursor.push, finishUnevaluated.eq_def] at hpush
    dsimp only at hpush
    split at hpush
    · cases hpush
    · split at hpush
      · split at hpush
        · obtain ⟨-, rfl⟩ := closeBefore_some hpush
          exact ⟨.closed, by simp⟩
        · cases hpush
      · cases hpush
      · cases hpush
      · rename_i scope' tracker' hscope htracker
        split at hpush
        · cases hpush
        · split at hpush
          · split at hpush
            · cases hpush
              exact ⟨.closed, by simp⟩
            · cases hpush
          · rename_i hopen
            cases hpush
            obtain ⟨hany', hinst'⟩ := tracked hany hinst htracker (Bool.eq_false_iff.2 hopen)
            exact ⟨.unevaluated (ihs hscope).1 (iht htracker).1 hany' hinst', by simp⟩

end Cursor
end MaskForge
