import MaskForge.Automaton.ScalarInterval
import MaskForge.Structured.JsonString
/-!
# StringFrame — a string frame, byte by byte

A string value counts its characters and runs the engine of its pattern over them.  Inside a character the engine is
asked whether a character the bytes begun can still give has a way on; outside it the bounds and the engine decide. 
What a frame makes of a whole JSON string is what its plan says of the decoded text.
-/
namespace MaskForge

open JsonStringDecoder (feed At)

namespace RefEngine

/-- `can_consume_supplementary_range`. -/
def canConsumeSupplementaryRange (e : RefEngine) (s start stop : Nat) : Option Bool :=
  if start < 0x10000 ∨ 0x10ffff < stop then some false else e.canConsumeScalarInterval s start stop

/-- `consume_token` on the bytes of a character, into a state that is not dead. -/
def stepScalar (e : RefEngine) (s : Nat) (c : Char) : Option Nat :=
  (e.consumeToken s (String.utf8EncodeChar c)).filter (fun q => !e.isDead q)

end RefEngine

structure StringFrame where
  body : Bool
  decoder : JsonStringDecoder
  scalars : Nat
  patternState : Option Nat

/-- `closed` hands the value over to `close_string_value`; `limit` is the resource error of a count that overflows. -/
inductive StringStep where
  | rejected
  | limit
  | advanced (f : StringFrame)
  | closed

namespace StringPlan

variable (plan : StringPlan)

/-- The query of the character begun. -/
def pendingViable (patternState : Option Nat) (decoder : JsonStringDecoder) : Option Bool :=
  match plan.pattern, patternState with
  | some e, some s => decoder.anyPendingScalarSatisfies 4096 (fun c => (e.stepScalar s c).isSome)
      (e.canConsumeAnyScalar s)
      (e.canConsumeSupplementaryRange s)
  | _, _ => none

/-- What the closing quote asks. -/
def closes (f : StringFrame) : Bool :=
  !(decide (f.scalars < plan.minScalars) || plan.maxScalars.any (fun maximum => decide (maximum < f.scalars)) ||
    plan.pattern.any (fun e => !f.patternState.any e.isAccepting))

/-- `route_string_byte`. -/
def routeStringByte (f : StringFrame) (b : Byte) : StringStep :=
  if f.body = false then
    if isWs b then .advanced f
    else if b ≠ 0x22 then .rejected
    else .advanced { f with body := true }
  else if b = 0x22 ∧ f.decoder.atBoundary = true then
    if plan.closes f then .closed else .rejected
  else match f.decoder.push b with
    | (.invalid, _) => .rejected
    | (.cont, decoder) =>
      if plan.maxScalars.any (fun maximum => decide (maximum ≤ f.scalars)) then .rejected
      else if plan.pendingViable f.patternState decoder = some false then .rejected
      else .advanced { f with decoder }
    | (.scalar c, decoder) =>
      if u32Max < f.scalars + 1 then .limit
      else if plan.maxScalars.any (fun maximum => decide (maximum < f.scalars + 1)) then .rejected
      else match plan.pattern, f.patternState with
        | some e, some s => match e.stepScalar s c with
          | none => .rejected
          | some s =>
            if plan.maxScalars = some (f.scalars + 1) ∧ e.isAccepting s = false then .rejected
            else .advanced { f with decoder, scalars := f.scalars + 1, patternState := some s }
        | _, _ => .advanced { f with decoder, scalars := f.scalars + 1 }

/-- The frame of a plan before its value. -/
def freshFrame : StringFrame := ⟨false, .new, 0, plan.pattern.map (fun e => e.start)⟩

/-- What a frame makes of a whole text: whether the last byte closes the value; `none` is the resource error. -/
def readString : StringFrame → List Byte → Option Bool
  | _, [] => some false
  | f, b :: text => match plan.routeStringByte f b with
    | .rejected => some false
    | .limit => none
    | .advanced f => readString f text
    | .closed => some text.isEmpty

/-- What the plan asks of a decoded text. -/
def Admits (s : Text) : Prop :=
  plan.minScalars ≤ s.length ∧ (∀ maximum ∈ plan.maxScalars, s.length ≤ maximum) ∧
    ∀ e ∈ plan.pattern, e.accepts (textBytes s) = true

end StringPlan

/-! ### The engine over characters -/

namespace RefEngine

variable {e : RefEngine}

/-- A character is taken where the engine stays alive. -/
theorem consumeToken_stepBytes (e : RefEngine) (w : List Byte) (c : Char) :
    e.consumeToken (e.stepBytes e.start w) (String.utf8EncodeChar c) =
      if e.stepBytes e.start (w ++ String.utf8EncodeChar c) = dead then none
      else some (e.stepBytes e.start (w ++ String.utf8EncodeChar c)) := by
  by_cases hs : e.stepBytes e.start w = dead
  · rw [e.stepBytes_append, hs, e.stepBytes_dead, if_pos rfl, e.consumeToken_dead (utf8Encode_ne_nil c)]
  · rw [e.consumeToken_eq _ _ hs, ← e.stepBytes_append]

/-- A reached state that is not DEAD is in range, so nothing is filtered out. -/
theorem stepScalar_stepBytes (e : RefEngine) (w : List Byte) (c : Char) : e.stepScalar (e.stepBytes e.start w) c =
    e.consumeToken (e.stepBytes e.start w) (String.utf8EncodeChar c) := by
  unfold stepScalar
  rw [consumeToken_stepBytes]
  split
  · rfl
  · rename_i halive
    rw [Option.filter_some, if_pos]
    rwa [Bool.not_eq_true', ← Bool.not_eq_true, e.isDead_stepBytes]

/-- A text past a dead state is not accepted. -/
theorem rejects_of_dead {w : List Byte} (h : e.stepBytes e.start w = dead) (v : List Byte) :
    e.accepts (w ++ v) = false := by
  rw [e.accepts_eq, e.acceptsFrom_append, h, e.acceptsFrom_dead]

/-- **Past the basic plane the query is exact.** -/
theorem canConsumeSupplementaryRange_exact (e : RefEngine) (s : Nat) {start stop : Nat} (hstart : 0x10000 ≤ start)
    (hstop : stop ≤ 0x10ffff) {r : Bool} (h : e.canConsumeSupplementaryRange s start stop = some r) :
    r = true ↔ ∃ c : Char, start ≤ c.toNat ∧ c.toNat ≤ stop ∧ (e.consumeToken s (String.utf8EncodeChar c)).isSome =
    true := by
  unfold canConsumeSupplementaryRange at h
  rw [if_neg (by omega)] at h
  by_cases hle : start ≤ stop
  · obtain ⟨a, rfl⟩ := exists_char start (by unfold Nat.isValidChar; omega)
    obtain ⟨b, rfl⟩ := exists_char stop (by unfold Nat.isValidChar; omega)
    have hwidth : (String.utf8EncodeChar a).length = (String.utf8EncodeChar b).length := by
      rw [length_utf8Encode, length_utf8Encode]
      split_ifs <;> omega
    obtain ⟨r', hr, hiff⟩ := (e.canConsume_exact s).1 a b hwidth (fun v hv hv' => by unfold Nat.isValidChar; omega)
    rw [h] at hr
    cases hr
    exact hiff
  · unfold canConsumeScalarInterval at h
    rw [if_pos (.inl (by omega))] at h
    cases h
    refine ⟨fun hf => absurd hf Bool.false_ne_true, ?_⟩
    rintro ⟨c, hc, hc', -⟩
    omega

end RefEngine

/-! ### The query inside a character -/

/-- The query asks for ranges past the basic plane only. -/
theorem JsonStringDecoder.anyPendingScalarSatisfies_congr (d : JsonStringDecoder) (maxCandidates : Nat)
    (predicate : Char → Bool) (anyScalar : Option Bool) {f g : Nat → Nat → Option Bool}
    (h : ∀ start stop, 0x10000 ≤ start → stop ≤ 0x10ffff → f start stop = g start stop) :
    d.anyPendingScalarSatisfies maxCandidates predicate anyScalar f =
    d.anyPendingScalarSatisfies maxCandidates predicate anyScalar g := by
  have hunicode : ∀ start stop, pendingUnicode start stop maxCandidates predicate f =
      pendingUnicode start stop maxCandidates predicate g := by
    intro start stop
    unfold pendingUnicode
    dsimp only
    split
    · rw [h _ _ (by omega) (by omega)]
    · rfl
  obtain ⟨escape, utf8, pending, n⟩ := d
  cases utf8 with
  | continuation => rfl
  | start =>
    cases escape with
    | none => cases pending <;> rfl
    | started => cases pending <;> rfl
    | unicode digits value =>
      unfold anyPendingScalarSatisfies
      dsimp only
      cases pending with
      | none => rw [hunicode]
      | some high => rfl

namespace StringPlan

variable {plan : StringPlan} {q : List Byte} {cs s : Text} {f f' : StringFrame} {b : Byte}

/-- A character that the count or the engine refuses is in no text the plan admits. -/
theorem not_admits_of_long {maximum : Nat} (hmax : maximum ∈ plan.maxScalars) (hlong : maximum < cs.length) :
    ¬plan.Admits cs :=
  fun h => Nat.not_lt.2 (h.2.1 maximum hmax) hlong

theorem not_admits_of_dead {e : RefEngine} (he : e ∈ plan.pattern) {c : Char}
    (hdead : e.stepBytes e.start (textBytes cs ++ String.utf8EncodeChar c) = dead) (rest : Text) :
    ¬plan.Admits (cs ++ c :: rest) := by
  rintro ⟨-, -, hpattern⟩
  have haccepts := hpattern e he
  rw [show cs ++ c :: rest = cs ++ [c] ++ rest by simp, textBytes_append, ← textBytes_snoc,
    e.rejects_of_dead hdead] at haccepts
  cases haccepts

/-- Where a frame stands inside the body: what was read is decoded, counted, and run through the engine. -/
structure Reads (plan : StringPlan) (q : List Byte) (cs : Text) (f : StringFrame) : Prop where
  started : f.body = true
  fed : JsonStringDecoder.new.feed q = some (cs, f.decoder)
  count : f.scalars = cs.length
  state : f.patternState = plan.pattern.map (fun e => e.stepBytes e.start (textBytes cs))
  few : cs.length ≤ u32Max

/-- **Where the query refuses, no text goes on with a character the bytes begun can give.** -/
theorem Reads.pendingViable_refuses (h : plan.Reads q cs f) {decoder : JsonStringDecoder}
    (hpush : f.decoder.push b = (.cont, decoder)) (hquery : plan.pendingViable f.patternState decoder = some false)
    {c : Char} (hc : decoder.Emits c) (rest : Text) : ¬plan.Admits (cs ++ c :: rest) := by
  intro hadmits
  unfold pendingViable at hquery
  rw [h.state] at hquery
  cases hp : plan.pattern with
  | none =>
    rw [hp] at hquery
    cases hquery
  | some e =>
    rw [hp] at hquery
    have hreach : JsonStringDecoder.new.feed (q ++ [b]) = some (cs, decoder) := by
      rw [JsonStringDecoder.feed_append, h.fed, Option.bind_some, JsonStringDecoder.feed_cont hpush]
      simp [feed]
    have hcongr := decoder.anyPendingScalarSatisfies_congr 4096
      (fun c => (e.stepScalar (e.stepBytes e.start (textBytes cs)) c).isSome)
      (e.canConsumeAnyScalar (e.stepBytes e.start (textBytes cs)))
      (f := e.canConsumeSupplementaryRange (e.stepBytes e.start (textBytes cs)))
      (g := fun start stop => if 0x10000 ≤ start ∧ stop ≤ 0x10ffff then
        e.canConsumeSupplementaryRange (e.stepBytes e.start (textBytes cs)) start stop else none)
      (fun start stop hstart hstop => (if_pos ⟨hstart, hstop⟩).symm)
    dsimp only [Option.map_some] at hquery
    rw [hcongr] at hquery
    have hexact := JsonStringDecoder.anyPendingScalarSatisfies_exact hreach 4096 _ (fun r hr => by
        have hany := (e.canConsume_exact (e.stepBytes e.start (textBytes cs))).2
        simp only [e.stepScalar_stepBytes, ← hany, hr, Option.some.injEq]) (fun start stop r hr => by
        split at hr
        · rename_i hrange
          simp only [e.stepScalar_stepBytes]
          exact e.canConsumeSupplementaryRange_exact _ hrange.1 hrange.2 hr
        · cases hr) hquery
    have hdead : e.stepBytes e.start (textBytes cs ++ String.utf8EncodeChar c) = dead := by
      by_contra halive
      refine absurd (hexact.2 ⟨c, ?_, hc⟩) Bool.false_ne_true
      rw [e.stepScalar_stepBytes, e.consumeToken_stepBytes, if_neg halive]
      rfl
    exact not_admits_of_dead hp hdead rest hadmits

/-- **Closing asks what the plan asks.** -/
theorem Reads.closes_iff (h : plan.Reads q cs f) : plan.closes f = true ↔ plan.Admits cs := by
  unfold closes Admits
  rw [h.state, h.count]
  cases plan.pattern with
  | none => cases plan.maxScalars <;> simp
  | some e => cases plan.maxScalars <;> simp [e.isAccepting_stepBytes, and_assoc]

/-- What a frame answers of a text that spells a string. -/
def Decides (plan : StringPlan) (s : Text) : Option Bool → Prop
  | some true => plan.Admits s ∧ s.length ≤ u32Max
  | some false => ¬plan.Admits s
  | none => u32Max < s.length

/-- **A byte inside a body**: it is refused where no text that goes on so is admitted, and the count overflows on a
long text only. -/
theorem Reads.step (h : plan.Reads q cs f) {rest : List Byte} {cs' : Text} {d : JsonStringDecoder}
    (hrest : f.decoder.feed (b :: rest) = some (cs', d)) (hd : d.atBoundary = true) :
    match plan.routeStringByte f b with
      | .rejected => ¬plan.Admits (cs ++ cs')
      | .limit => u32Max < (cs ++ cs').length
      | .advanced f' => ∃ cs₁, plan.Reads (q ++ [b]) cs₁ f'
      | .closed => False := by
  obtain ⟨done, u, -, -, hat, -⟩ := JsonStringDecoder.feed_split (.boundary 0) h.fed
  have hquote : ¬(b = 0x22 ∧ f.decoder.atBoundary = true) := by
    rintro ⟨rfl, hboundary⟩
    rw [feed, hat.push_quote hboundary] at hrest
    cases hrest
  have hbody : ¬f.body = false := by simp [h.started]
  unfold routeStringByte
  rw [if_neg hbody, if_neg hquote]
  rw [feed] at hrest
  cases hpush : f.decoder.push b with
  | mk outcome decoder =>
    rw [hpush] at hrest
    cases outcome with
    | invalid => cases hrest
    | cont =>
      have hinside := hat.push b
      rw [hpush] at hinside
      cases hinside with
      | cont hinside _ =>
        obtain ⟨c, tail, rfl, hc⟩ := JsonStringDecoder.emits_of_feed hinside (by simp) hrest hd
        dsimp only
        by_cases hfull : plan.maxScalars.any (fun maximum => decide (maximum ≤ f.scalars)) = true
        · rw [if_pos hfull]
          obtain ⟨maximum, hmax, hle⟩ := (Option.any_eq_true _ _).1 hfull
          rw [decide_eq_true_eq, h.count] at hle
          exact not_admits_of_long hmax (by simp; omega)
        · rw [if_neg hfull]
          by_cases hquery : plan.pendingViable f.patternState decoder = some false
          · rw [if_pos hquery]
            exact h.pendingViable_refuses hpush hquery hc tail
          · rw [if_neg hquery]
            refine ⟨cs, h.started, ?_, h.count, h.state, h.few⟩
            rw [JsonStringDecoder.feed_append, h.fed, Option.bind_some, JsonStringDecoder.feed_cont hpush]
            simp [feed]
    | scalar c =>
      obtain ⟨⟨tail, d₁⟩, -, heq⟩ := Option.map_eq_some_iff.1 hrest
      cases heq
      have hfed : JsonStringDecoder.new.feed (q ++ [b]) = some (cs ++ [c], decoder) := by
        rw [JsonStringDecoder.feed_append, h.fed, Option.bind_some, JsonStringDecoder.feed_scalar hpush]
        rfl
      have hcount : f.scalars + 1 = (cs ++ [c]).length := by simp [h.count]
      have hlen : (cs ++ c :: tail).length = (cs ++ [c]).length + tail.length := by simp; omega
      dsimp only
      by_cases hover : u32Max < f.scalars + 1
      · rw [if_pos hover]
        show u32Max < (cs ++ c :: tail).length
        omega
      · rw [if_neg hover]
        by_cases hfull : plan.maxScalars.any (fun maximum => decide (maximum < f.scalars + 1)) = true
        · rw [if_pos hfull]
          obtain ⟨maximum, hmax, hlt⟩ := (Option.any_eq_true _ _).1 hfull
          rw [decide_eq_true_eq] at hlt
          exact not_admits_of_long hmax (by omega)
        · rw [if_neg hfull, h.state]
          cases hp : plan.pattern with
          | none => exact ⟨cs ++ [c], h.started, hfed, hcount, by rw [hp]; rfl, by omega⟩
          | some e =>
            dsimp only [Option.map_some]
            rw [e.stepScalar_stepBytes, e.consumeToken_stepBytes]
            by_cases hdead : e.stepBytes e.start (textBytes cs ++ String.utf8EncodeChar c) = dead
            · rw [if_pos hdead]
              exact not_admits_of_dead hp hdead tail
            · rw [if_neg hdead]
              dsimp only
              by_cases hlast : plan.maxScalars = some (f.scalars + 1) ∧
                  e.isAccepting (e.stepBytes e.start (textBytes cs ++ String.utf8EncodeChar c)) = false
              · rw [if_pos hlast]
                rintro ⟨-, hmax, hpattern⟩
                have hnil : tail = [] := by
                  have := hmax _ hlast.1
                  exact List.length_eq_zero_iff.1 (by omega)
                have haccepts := hpattern e hp
                rw [hnil, ← textBytes_snoc, ← e.isAccepting_stepBytes, hlast.2] at haccepts
                cases haccepts
              · rw [if_neg hlast]
                exact ⟨cs ++ [c], h.started, hfed, hcount, by rw [hp, ← textBytes_snoc]; rfl, by omega⟩

/-- **From inside a body the frame decides the string.** -/
theorem Reads.decides : ∀ (rest : List Byte) {q : List Byte} {cs : Text} {f : StringFrame}, plan.Reads q cs f →
    Spelling (q ++ rest) s → plan.Decides s (plan.readString f (rest ++ [0x22]))
  | [], q, cs, f, h, hspell => by
    obtain ⟨d, hfeed, hd⟩ := (JsonStringDecoder.feed_iff_spelling _ s).2 hspell
    rw [List.append_nil, h.fed] at hfeed
    cases hfeed
    have hbody : ¬f.body = false := by simp [h.started]
    rw [List.nil_append, readString, routeStringByte, if_neg hbody, if_pos ⟨rfl, hd⟩]
    have hiff := h.closes_iff
    by_cases hclose : plan.closes f = true
    · rw [if_pos hclose]
      exact ⟨hiff.1 hclose, h.few⟩
    · rw [if_neg hclose]
      exact fun hadmits => hclose (hiff.2 hadmits)
  | b :: rest, q, cs, f, h, hspell => by
    obtain ⟨d, hfeed, hd⟩ := (JsonStringDecoder.feed_iff_spelling _ s).2 hspell
    rw [JsonStringDecoder.feed_append, h.fed, Option.bind_some] at hfeed
    obtain ⟨⟨cs', d'⟩, hrest, heq⟩ := Option.map_eq_some_iff.1 hfeed
    simp only [Prod.mk.injEq] at heq
    have hstep := h.step hrest (heq.2 ▸ hd)
    rw [heq.1] at hstep
    rw [List.cons_append, readString]
    cases hroute : plan.routeStringByte f b with
    | rejected =>
      rw [hroute] at hstep
      exact hstep
    | limit =>
      rw [hroute] at hstep
      exact hstep
    | advanced f' =>
      rw [hroute] at hstep
      obtain ⟨cs₁, hreads⟩ := hstep
      exact Reads.decides rest hreads (by rw [List.append_assoc]; exact hspell)
    | closed =>
      rw [hroute] at hstep
      exact hstep.elim

/-- **A string frame decides its plan**: on a JSON text of a string, whitespace before it, the last byte closes
the value iff the plan admits the decoded string; the count overflows only where the string has more than
`u32::MAX` characters. -/
theorem string_frame_exact (plan : StringPlan) {s : Text} : ∀ {text : List Byte}, JsonString s text →
    plan.Decides s (plan.readString plan.freshFrame text)
  | [], ⟨body, hbody, _⟩ => by cases hbody
  | b :: text, ⟨body, hbody, hspell⟩ => by
    rw [readString, routeStringByte, if_pos (show plan.freshFrame.body = false from rfl)]
    rw [List.dropWhile_cons] at hbody
    by_cases hb : isWs b = true
    · rw [if_pos hb] at hbody ⊢
      exact string_frame_exact plan ⟨body, hbody, hspell⟩
    · rw [if_neg hb] at hbody ⊢
      cases hbody
      rw [if_neg (not_not.2 rfl)]
      have hreads : plan.Reads [] [] { plan.freshFrame with body := true } := ⟨rfl, rfl, rfl, rfl, Nat.zero_le _⟩
      exact hreads.decides body hspell

end StringPlan

end MaskForge
