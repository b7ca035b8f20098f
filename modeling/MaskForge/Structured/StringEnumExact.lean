import MaskForge.Structured.StringEnumRoute
/-!
# StringEnumExact — a string enum accepts its decoded members, and refuses what spells none

The frame's run holds exactly the members that start with what was decoded, so the probes inside a character ask what
they mean to: whether a member goes on with a character the bytes begun can still give.  A byte is never refused while
a member that is admissible can be completed.  It is refused at once where none can, but for two places: the lead of a
four-byte character, past what the query looks through, and the digits of an escape that may be half of a pair, where a
member that has ended hides the others.
-/
namespace MaskForge

open Bisect (bisect bisect_spec Turns)
open JsonStringDecoder (feed At Emits)

namespace StringEnumPlan

variable {plan : StringEnumPlan} {decoded : List Byte} {lo hi lo' hi' : Nat} {byte : Byte}

/-! ## The run holds exactly the members that agree -/

/-- The run of the members that start with what was decoded. -/
structure Narrowed (plan : StringEnumPlan) (decoded : List Byte) (lo hi : Nat) : Prop where
  run : plan.Run decoded lo hi
  complete : ∀ i m, plan.members[i]? = some m → decoded <+: m → lo ≤ i ∧ i < hi

theorem Narrowed.fresh (h : plan.members ≠ []) : plan.Narrowed [] 0 plan.memberCount where
  run := {
    lt := List.length_pos_iff.2 h
    le := Nat.le_refl _
    starts := fun _ _ _ _ _ => List.nil_prefix }
  complete := fun i _ hm _ => ⟨Nat.zero_le i, (List.getElem?_eq_some_iff.1 hm).1⟩

/-- The two searches close in on the members whose next byte is the byte read. -/
theorem Run.between (hs : plan.Sorted) (h : plan.Run decoded lo hi) {i : Nat} (hlo : lo ≤ i) (hhi : i < hi)
    (hi' : plan.byteAt i decoded.length = some byte) :
    plan.lowerBoundByte lo hi decoded.length byte false ≤ i ∧
      i < plan.lowerBoundByte (plan.lowerBoundByte lo hi decoded.length byte false) hi decoded.length byte true := by
  unfold lowerBoundByte
  obtain ⟨h1, h2, h3, -⟩ := bisect_spec _ lo hi (Nat.le_of_lt h.lt) (h.turns hs byte false)
  have hturns : Turns (plan.advances decoded.length byte true)
    (bisect (plan.advances decoded.length byte false) lo hi) hi :=
    fun a b ha hab hb => h.turns hs byte true a b (Nat.le_trans h1 ha) hab hb
  obtain ⟨-, -, -, h8⟩ := bisect_spec _ _ hi h2 hturns
  constructor
  · by_contra hlt
    have hadv := h3 i hlo (by omega)
    unfold advances at hadv
    rw [hi'] at hadv
    simp at hadv
  · by_contra hge
    have hadv := h8 i (by omega) hhi
    unfold advances at hadv
    rw [hi'] at hadv
    simp at hadv

theorem Narrowed.next_byte (h : plan.Narrowed decoded lo hi) {i : Nat} {m : List Byte} (hm : plan.members[i]? = some m)
    (hstarts : decoded ++ [byte] <+: m) : lo ≤ i ∧ i < hi ∧ plan.byteAt i decoded.length = some byte := by
  obtain ⟨rest, rfl⟩ := hstarts
  obtain ⟨hlo, hhi⟩ := h.complete i _ hm ⟨byte :: rest, by simp⟩
  refine ⟨hlo, hhi, ?_⟩
  simp [byteAt, hm]

theorem Narrowed.narrow (hs : plan.Sorted) (h : plan.Narrowed decoded lo hi)
    (hn : plan.narrow lo hi decoded.length byte = some (lo', hi')) : plan.Narrowed (decoded ++ [byte]) lo' hi' where
  run := h.run.narrow hs hn
  complete := by
    intro i m hm hstarts
    obtain ⟨hlo, hhi, hat⟩ := h.next_byte hm hstarts
    unfold StringEnumPlan.narrow at hn
    split at hn
    · cases hn
    · split at hn
      · split at hn
        · cases hn
          exact ⟨hlo, hhi⟩
        · cases hn
      · have hbetween := h.run.between hs hlo hhi hat
        dsimp only at hn
        split at hn
        · cases hn
          exact hbetween
        · cases hn

/-- A refused byte goes on with no member. -/
theorem Narrowed.narrow_none (hs : plan.Sorted) (h : plan.Narrowed decoded lo hi)
    (hn : plan.narrow lo hi decoded.length byte = none) : ∀ m ∈ plan.members, ¬decoded ++ [byte] <+: m := by
  intro m hmem hstarts
  obtain ⟨i, hm⟩ := List.mem_iff_getElem?.1 hmem
  obtain ⟨hlo, hhi, hat⟩ := h.next_byte hm hstarts
  unfold StringEnumPlan.narrow at hn
  split at hn
  · rename_i hbad
    have hlt := h.run.lt
    have hle := h.run.le
    omega
  · split at hn
    · rename_i hone
      split at hn
      · cases hn
      · rename_i hbyte
        exact hbyte (by rw [show lo = i by omega]; exact hat)
    · have hbetween := h.run.between hs hlo hhi hat
      dsimp only at hn
      split at hn
      · cases hn
      · omega

theorem narrowAll_narrowed (hs : plan.Sorted) : ∀ (bytes : List Byte) {decoded : List Byte} {lo hi : Nat},
    plan.Narrowed decoded lo hi → match Cursor.narrowAll plan bytes (lo, hi, decoded.length) with
      | some (lo', hi', position) => plan.Narrowed (decoded ++ bytes) lo' hi' ∧ position = (decoded ++ bytes).length
      | none => ∀ m ∈ plan.members, ¬decoded ++ bytes <+: m
  | [], decoded, lo, hi, h => by
    rw [Cursor.narrowAll, List.append_nil]
    exact ⟨h, rfl⟩
  | byte :: bytes, decoded, lo, hi, h => by
    rw [Cursor.narrowAll]
    cases hn : plan.narrow lo hi decoded.length byte with
    | none =>
      intro m hm hstarts
      refine h.narrow_none hs hn m hm (List.IsPrefix.trans ⟨bytes, ?_⟩ hstarts)
      rw [List.append_assoc]
      rfl
    | some r =>
      obtain ⟨lo₁, hi₁⟩ := r
      have hrest := narrowAll_narrowed hs bytes (h.narrow hs hn)
      rw [List.length_append, List.append_assoc] at hrest
      exact hrest

/-! ## The probes ask what they mean to -/

theorem Narrowed.anyMember_iff (h : plan.Narrowed decoded lo hi) (p : List Byte → Bool) :
    plan.anyMember lo hi p = true ↔ ∃ m ∈ plan.members, decoded <+: m ∧ p m = true := by
  unfold anyMember
  rw [List.any_eq_true]
  constructor
  · rintro ⟨i, hi, hp⟩
    rw [List.mem_range'_1] at hi
    obtain ⟨m, hm, hpm⟩ := (Option.any_eq_true _ _).1 hp
    exact ⟨m, List.mem_of_getElem? hm, h.run.starts i hi.1 (by omega) m hm, hpm⟩
  · rintro ⟨m, hmem, hstarts, hpm⟩
    obtain ⟨i, hm⟩ := List.mem_iff_getElem?.1 hmem
    obtain ⟨hlo, hhi⟩ := h.complete i m hm hstarts
    exact ⟨i, List.mem_range'_1.2 ⟨hlo, by omega⟩, by rw [hm]; exact hpm⟩

theorem Narrowed.exists_member (h : plan.Narrowed decoded lo hi) : ∃ m ∈ plan.members, decoded <+: m := by
  obtain ⟨rest, hm, -⟩ := h.run.member (Nat.le_refl lo) h.run.lt
  exact ⟨_, List.mem_of_getElem? hm, List.prefix_append _ _⟩

theorem Narrowed.hasUnseenCandidate_iff (h : plan.Narrowed decoded lo hi) (t : NodeTable) (parent : Option ItemParent) :
    plan.hasUnseenCandidate t parent lo hi = true ↔ ∃ m ∈ plan.members, decoded <+: m ∧
    admissible t parent m = true := by
  unfold hasUnseenCandidate
  cases parent with
  | none =>
    obtain ⟨m, hm, hstarts⟩ := h.exists_member
    exact ⟨fun _ => ⟨m, hm, hstarts, rfl⟩, fun _ => rfl⟩
  | some array => exact h.anyMember_iff _

/-- Members that ended come first. -/
theorem Narrowed.containsExact_iff (hs : plan.Sorted) (h : plan.Narrowed decoded lo hi) :
    plan.containsExact lo hi decoded.length = true ↔ decoded ∈ plan.members := by
  unfold containsExact
  obtain ⟨rest, hm, -⟩ := h.run.member (Nat.le_refl lo) h.run.lt
  rw [hm]
  simp only [h.run.lt, h.run.le, and_self, decide_true, Bool.true_and, Option.any_some, List.length_append, beq_iff_eq]
  constructor
  · intro hlen
    have hnil : rest = [] := List.length_eq_zero_iff.1 (by omega)
    rw [hnil, List.append_nil] at hm
    exact List.mem_of_getElem? hm
  · intro hmem
    obtain ⟨i, hi'⟩ := List.mem_iff_getElem?.1 hmem
    obtain ⟨hlo, -⟩ := h.complete i _ hi' (List.prefix_refl _)
    rcases Nat.eq_or_lt_of_le hlo with rfl | hlt
    · rw [hm] at hi'
      have := congrArg List.length (Option.some.inj hi')
      simpa using this
    · have := hs.lt hlt hm hi'
      rw [show decoded = decoded ++ [] by simp] at this
      rw [List.append_assoc] at this
      exact absurd (lt_of_append_lt _ this) (by simp)

/-- Members that go on come last. -/
theorem Narrowed.canContinue_iff (hs : plan.Sorted) (h : plan.Narrowed decoded lo hi) :
    plan.canContinue lo hi decoded.length = true ↔ ∃ m ∈ plan.members, decoded <+: m ∧ decoded.length < m.length := by
  unfold canContinue
  have hlt := h.run.lt
  obtain ⟨rest, hm, -⟩ := h.run.member (i := hi - 1) (by omega) (by omega)
  rw [hm]
  simp only [h.run.lt, h.run.le, and_self, decide_true, Bool.true_and, Option.any_some, decide_eq_true_eq]
  constructor
  · intro hlen
    exact ⟨_, List.mem_of_getElem? hm, List.prefix_append _ _, hlen⟩
  · rintro ⟨m, hmem, ⟨tail, rfl⟩, hlen⟩
    obtain ⟨i, hi'⟩ := List.mem_iff_getElem?.1 hmem
    obtain ⟨hlo, hhi⟩ := h.complete i _ hi' (List.prefix_append _ _)
    rcases Nat.eq_or_lt_of_le (show i ≤ hi - 1 by omega) with rfl | hlt'
    · rw [hm] at hi'
      rw [← Option.some.inj hi'] at hlen
      exact hlen
    · have hless := lt_of_append_lt _ (hs.lt hlt' hi' hm)
      cases rest with
      | nil => exact absurd hless (by simp)
      | cons => simp

theorem Narrowed.scalarHasUnseenCandidate_iff (hs : plan.Sorted) (h : plan.Narrowed decoded lo hi) (t : NodeTable)
    (parent : Option ItemParent) (c : Char) : plan.scalarHasUnseenCandidate t parent lo hi decoded.length c = true ↔
      ∃ m ∈ plan.members, decoded ++ String.utf8EncodeChar c <+: m ∧ admissible t parent m = true := by
  have hall := narrowAll_narrowed hs (String.utf8EncodeChar c) h
  unfold scalarHasUnseenCandidate
  cases hn : Cursor.narrowAll plan (String.utf8EncodeChar c) (lo, hi, decoded.length) with
  | none =>
    rw [hn] at hall
    constructor
    · intro h
      cases h
    · rintro ⟨m, hm, hstarts, -⟩
      exact absurd hstarts (hall m hm)
  | some r =>
    rw [hn] at hall
    exact hall.1.hasUnseenCandidate_iff t parent

theorem Narrowed.anyScalarHasUnseenCandidate_iff (h : plan.Narrowed decoded lo hi) (t : NodeTable)
    (parent : Option ItemParent) : plan.anyScalarHasUnseenCandidate t parent lo hi decoded.length = true ↔
      ∃ m ∈ plan.members, decoded <+: m ∧ decoded.length < m.length ∧ admissible t parent m = true := by
  unfold anyScalarHasUnseenCandidate
  rw [h.anyMember_iff]
  simp only [Bool.and_eq_true, decide_eq_true_eq]

end StringEnumPlan

/-! ## Members as texts -/

theorem mem_stringEnumPlan {values : List Text} {p : List Byte → Prop} :
    (∃ m ∈ (stringEnumPlan values).members, p m) ↔ ∃ text ∈ values, p (textBytes text) := by
  unfold stringEnumPlan
  simp only [List.mem_map, exists_exists_and_eq_and]

/-- What is left of a member starts with the character that follows what was decoded. -/
theorem nextScalar_text (cs rest : Text) :
    StringEnumPlan.nextScalar (textBytes cs).length (textBytes (cs ++ rest)) = rest.head? := by
  unfold StringEnumPlan.nextScalar
  rw [textBytes_append, if_pos (by simp), List.drop_left, (strFromUtf8_iff (textBytes rest) rest).2 rfl,
    Option.bind_some]

namespace StringEnumPlan

variable {values : List Text} {parent : Option ItemParent} {cs : Text} {lo hi first last : Nat}

/-- A text that starts with another, and how the run's members look as texts. -/
theorem Narrowed.text (h : (stringEnumPlan values).Narrowed (textBytes cs) lo hi) {i : Nat} (hlo : lo ≤ i)
    (hhi : i < hi) :
    ∃ rest, cs ++ rest ∈ values ∧ (stringEnumPlan values).members[i]? = some (textBytes (cs ++ rest)) := by
  obtain ⟨tail, hm, -⟩ := h.run.member hlo hhi
  obtain ⟨text, htext, heq⟩ : ∃ text ∈ values, textBytes cs ++ tail = textBytes text :=
    mem_stringEnumPlan.1 ⟨_, List.mem_of_getElem? hm, rfl⟩
  have hstarts : cs <+: text := textBytes_isPrefix.1 ⟨tail, heq⟩
  obtain ⟨rest, rfl⟩ := hstarts
  exact ⟨rest, htext, by rw [hm, heq]⟩

theorem Narrowed.supplementaryLoop_spec (h : (stringEnumPlan values).Narrowed (textBytes cs) lo hi)
    (parent : Option ItemParent) (first last : Nat) :
    ∀ (indices : List Nat), (∀ i ∈ indices, lo ≤ i ∧ i < hi) →
      match (stringEnumPlan values).supplementaryLoop parent (textBytes cs).length first last indices with
      | some true => ∃ c rest, cs ++ c :: rest ∈ values ∧ first ≤ c.toNat ∧ c.toNat ≤ last ∧
          parent.all (·.unseen (textBytes (cs ++ c :: rest))) = true
      | some false => ∀ i ∈ indices, ∀ c rest,
          (stringEnumPlan values).members[i]? = some (textBytes (cs ++ c :: rest)) →
          first ≤ c.toNat → c.toNat ≤ last → parent.all (·.unseen (textBytes (cs ++ c :: rest))) = false
      | none => cs ∈ values
  | [], _ => by
    rw [supplementaryLoop]
    exact fun i hi => absurd hi List.not_mem_nil
  | i :: indices, hrange => by
    have hrest := h.supplementaryLoop_spec parent first last indices (fun j hj => hrange j (List.mem_cons_of_mem i hj))
    obtain ⟨hlo, hhi⟩ := hrange i List.mem_cons_self
    obtain ⟨rest, hmem, hm⟩ := h.text hlo hhi
    rw [supplementaryLoop, hm, Option.bind_some, nextScalar_text]
    cases rest with
    | nil =>
      rw [List.append_nil] at hmem
      exact hmem
    | cons c rest =>
      rw [List.head?_cons, Option.bind_some]
      by_cases hc : first ≤ c.toNat ∧ c.toNat ≤ last ∧ parent.all (·.unseen (textBytes (cs ++ c :: rest))) = true
      · rw [if_pos hc]
        exact ⟨c, rest, hmem, hc⟩
      · rw [if_neg hc]
        cases hloop : (stringEnumPlan values).supplementaryLoop parent (textBytes cs).length first last indices with
        | none =>
          rw [hloop] at hrest
          exact hrest
        | some r =>
          rw [hloop] at hrest
          cases r with
          | true => exact hrest
          | false =>
            intro j hj c' rest' hm' hfirst hlast
            rcases List.mem_cons.1 hj with rfl | hj
            · rw [hm] at hm'
              have := List.append_cancel_left (textBytes_inj (Option.some.inj hm'))
              cases this
              by_contra hunseen
              exact hc ⟨hfirst, hlast, by simpa using hunseen⟩
            · exact hrest j hj c' rest' hm' hfirst hlast

/-- Some admissible member goes on with the character. -/
def GoesOn (values : List Text) (t : NodeTable) (parent : Option ItemParent) (cs : Text) (c : Char) : Prop :=
  ∃ text ∈ values, cs ++ [c] <+: text ∧ admissible t parent (textBytes text) = true

theorem Narrowed.scalar_goesOn (hs : (stringEnumPlan values).Sorted)
    (h : (stringEnumPlan values).Narrowed (textBytes cs) lo hi) (t : NodeTable) (c : Char) :
    (stringEnumPlan values).scalarHasUnseenCandidate t parent lo hi (textBytes cs).length c = true ↔
      GoesOn values t parent cs c := by
  rw [h.scalarHasUnseenCandidate_iff hs, textBytes_snoc, mem_stringEnumPlan]
  simp only [textBytes_isPrefix, GoesOn]

theorem Narrowed.anyScalar_goesOn (h : (stringEnumPlan values).Narrowed (textBytes cs) lo hi) (t : NodeTable) :
    (stringEnumPlan values).anyScalarHasUnseenCandidate t parent lo hi (textBytes cs).length = true ↔
      ∃ c, GoesOn values t parent cs c := by
  rw [h.anyScalarHasUnseenCandidate_iff, mem_stringEnumPlan]
  constructor
  · rintro ⟨text, htext, hstarts, hlen, hadm⟩
    obtain ⟨rest, rfl⟩ := textBytes_isPrefix.1 hstarts
    cases rest with
    | nil => simp at hlen
    | cons c rest => exact ⟨c, _, htext, ⟨rest, by simp⟩, hadm⟩
  · rintro ⟨c, text, htext, ⟨rest, rfl⟩, hadm⟩
    refine ⟨_, htext, textBytes_isPrefix.2 ⟨c :: rest, by simp⟩, ?_, hadm⟩
    have hpos := List.length_pos_iff.2 (utf8Encode_ne_nil c)
    rw [textBytes_append, ← textBytes_snoc, List.length_append, List.length_append]
    omega

/-- The probe of the characters past the basic plane leaves the cap of `contains` out, and gives up at a member that has
ended. -/
theorem Narrowed.supplementary_spec (h : (stringEnumPlan values).Narrowed (textBytes cs) lo hi) (t : NodeTable)
    (parent : Option ItemParent) (first last : Nat) :
    match (stringEnumPlan values).supplementaryHasUnseenCandidate parent lo hi (textBytes cs).length first last with
    | some true => ∃ c text, text ∈ values ∧ cs ++ [c] <+: text ∧ first ≤ c.toNat ∧ c.toNat ≤ last ∧
        parent.all (·.unseen (textBytes text)) = true
    | some false => ∀ c, first ≤ c.toNat → c.toNat ≤ last → ¬GoesOn values t parent cs c
    | none => cs ∈ values := by
  unfold supplementaryHasUnseenCandidate
  have hlt := h.run.lt
  have hle := h.run.le
  rw [if_neg (by omega)]
  have hloop := h.supplementaryLoop_spec parent first last (List.range' lo (hi - lo))
    (fun i hi => by have := List.mem_range'_1.1 hi; omega)
  cases hsome : (stringEnumPlan values).supplementaryLoop parent (textBytes cs).length first last
    (List.range' lo (hi - lo)) with
  | none =>
    rw [hsome] at hloop
    exact hloop
  | some r =>
    rw [hsome] at hloop
    cases r with
    | true =>
      obtain ⟨c, rest, htext, hfirst, hlast, hunseen⟩ := hloop
      exact ⟨c, _, htext, ⟨rest, by simp⟩, hfirst, hlast, hunseen⟩
    | false =>
      rintro c hfirst hlast ⟨text, htext, ⟨rest, rfl⟩, hadm⟩
      rw [List.append_assoc] at htext hadm
      obtain ⟨i, hm⟩ := List.mem_iff_getElem?.1 (show textBytes (cs ++ ([c] ++ rest)) ∈
        (stringEnumPlan values).members from
        List.mem_map_of_mem htext)
      obtain ⟨hlo, hhi⟩ := h.complete i _ hm (textBytes_isPrefix.2 (List.prefix_append _ _))
      have hseen := hloop i (List.mem_range'_1.2 ⟨hlo, by omega⟩) c rest hm hfirst hlast
      cases parent with
      | none => cases hseen
      | some array =>
        simp only [admissible, Option.all_some, Bool.and_eq_true] at hadm
        rw [Option.all_some, show c :: rest = [c] ++ rest from rfl, hadm.1] at hseen
        cases hseen

end StringEnumPlan

/-! ## The character begun -/

namespace JsonStringDecoder

/-- A refusal does not hang on the symbolic answer having been more than a refusal. -/
theorem anyPendingScalarSatisfies_refuses {d : JsonStringDecoder} {maxCandidates : Nat} {predicate : Char → Bool}
    {anyScalar : Option Bool} {supplementaryRange : Nat → Nat → Option Bool}
    (h : d.anyPendingScalarSatisfies maxCandidates predicate anyScalar supplementaryRange = some false) :
    d.anyPendingScalarSatisfies maxCandidates predicate anyScalar
      (fun first last => (supplementaryRange first last).filter (!·)) = some false := by
  have hunicode : ∀ {start stop : Nat}, pendingUnicode start stop maxCandidates predicate supplementaryRange =
    some false →
      pendingUnicode start stop maxCandidates predicate
        (fun first last => (supplementaryRange first last).filter (!·)) = some false := by
    intro start stop h
    unfold pendingUnicode at h ⊢
    split at h
    · rename_i hreach
      rw [if_pos hreach]
      dsimp only at h ⊢
      generalize (if start ≤ min stop 0xd7ff then min stop 0xd7ff - start + 1 else 0) +
        (if max start 0xe000 ≤ stop then stop - max start 0xe000 + 1 else 0) = count at h ⊢
      split at h
      · cases h
      · rename_i hfew
        rw [if_neg hfew]
        split at h
        · cases h
        · rename_i hbmp
          rw [if_neg hbmp, h]
          rfl
    · rename_i hreach
      rw [if_neg hreach]
      exact h
  obtain ⟨escape, utf8, pending, n⟩ := d
  cases utf8 with
  | continuation => exact h
  | start =>
    cases escape with
    | none => cases pending <;> exact h
    | started => cases pending <;> exact h
    | unicode digits value =>
      unfold anyPendingScalarSatisfies at h ⊢
      dsimp only at h ⊢
      split at h
      · cases h
      · rename_i hdigits
        rw [if_neg hdigits]
        cases pending with
        | none => exact hunicode h
        | some high => exact h

end JsonStringDecoder

namespace StringEnumPlan

variable {values : List Text} {parent : Option ItemParent} {cs cs' : Text} {lo hi : Nat} {q : List Byte}
  {d : JsonStringDecoder}

/-- **Where the query refuses, no admissible member goes on with a character the bytes begun can give.** -/
theorem Narrowed.pendingCandidate_refuses (hs : (stringEnumPlan values).Sorted)
    (h : (stringEnumPlan values).Narrowed (textBytes cs) lo hi) (t : NodeTable)
    (hreach : JsonStringDecoder.new.feed q = some (cs', d))
    (hq : (stringEnumPlan values).pendingCandidate t parent lo hi (textBytes cs).length d = some false)
    (c : Char) (hc : d.Emits c) : ¬GoesOn values t parent cs c := by
  intro hgoes
  have hexact := JsonStringDecoder.anyPendingScalarSatisfies_exact hreach 4096
    ((stringEnumPlan values).scalarHasUnseenCandidate t parent lo hi (textBytes cs).length)
    (fun r hr => by
      cases hr
      rw [h.anyScalar_goesOn]
      exact exists_congr fun c => (h.scalar_goesOn hs t c).symm)
    (fun first last r hr => by
      obtain ⟨hsome, hrefused⟩ := Option.filter_eq_some_iff.1 hr
      have hspec := h.supplementary_spec t parent first last
      rw [hsome] at hspec
      cases r with
      | true => cases hrefused
      | false =>
        refine ⟨fun hf => absurd hf Bool.false_ne_true, ?_⟩
        rintro ⟨c, hfirst, hlast, hp⟩
        exact absurd ((h.scalar_goesOn hs t c).1 hp) (hspec c hfirst hlast))
    (JsonStringDecoder.anyPendingScalarSatisfies_refuses hq)
  exact absurd (hexact.2 ⟨c, (h.scalar_goesOn hs t c).2 hgoes, hc⟩) Bool.false_ne_true

/-- **Outside an array, where the query is for it, a member goes on with such a character.** -/
theorem Narrowed.pendingCandidate_finds (hs : (stringEnumPlan values).Sorted)
    (h : (stringEnumPlan values).Narrowed (textBytes cs) lo hi) (t : NodeTable)
    (hreach : JsonStringDecoder.new.feed q = some (cs', d))
    (hq : (stringEnumPlan values).pendingCandidate t none lo hi (textBytes cs).length d = some true) :
    ∃ c, d.Emits c ∧ ∃ text ∈ values, cs ++ [c] <+: text := by
  obtain ⟨c, hp, hc⟩ := (JsonStringDecoder.anyPendingScalarSatisfies_exact hreach 4096
    ((stringEnumPlan values).scalarHasUnseenCandidate t none lo hi (textBytes cs).length)
    (fun r hr => by
      cases hr
      rw [h.anyScalar_goesOn]
      exact exists_congr fun c => (h.scalar_goesOn hs t c).symm)
    (fun first last r hr => by
      have hspec := h.supplementary_spec t none first last
      rw [hr] at hspec
      cases r with
      | true =>
        obtain ⟨c, text, htext, hstarts, hfirst, hlast, -⟩ := hspec
        exact ⟨fun _ => ⟨c, hfirst, hlast, (h.scalar_goesOn hs t c).2 ⟨text, htext, hstarts, rfl⟩⟩, fun _ => rfl⟩
      | false =>
        refine ⟨fun hf => absurd hf Bool.false_ne_true, ?_⟩
        rintro ⟨c, hfirst, hlast, hp⟩
        exact absurd ((h.scalar_goesOn hs t c).1 hp) (hspec c hfirst hlast))
    hq).1 rfl
  obtain ⟨text, htext, hstarts, -⟩ := (h.scalar_goesOn hs t c).1 hp
  exact ⟨c, hc, text, htext, hstarts⟩

/-- The interval of some digits is searched, if the answer past the basic plane is there. -/
theorem pendingUnicode_answers {start stop maxCandidates : Nat} {predicate : Char → Bool}
    {supplementaryRange : Nat → Nat → Option Bool} (hfew : stop + 1 - start ≤ maxCandidates)
    (hsupplementary : start ≤ 0xdbff → 0xd800 ≤ stop → ∀ first last, (supplementaryRange first last).isSome) :
    (JsonStringDecoder.pendingUnicode start stop maxCandidates predicate supplementaryRange).isSome := by
  unfold JsonStringDecoder.pendingUnicode
  split
  · rename_i hreach
    have hcount : ¬maxCandidates < (if start ≤ min stop 0xd7ff then min stop 0xd7ff - start + 1 else 0) +
        (if max start 0xe000 ≤ stop then stop - max start 0xe000 + 1 else 0) := by
      split <;> split <;> omega
    dsimp only
    rw [if_neg hcount]
    split
    · rfl
    · exact hsupplementary hreach.1 hreach.2 _ _
  · rw [if_neg (by omega)]
    rfl

/-- **The query answers inside a character**, but for the lead of a four-byte one, an escape without digits, and digits
that may name the first half of a pair where a member has ended. -/
theorem Narrowed.pendingCandidate_answers (h : (stringEnumPlan values).Narrowed (textBytes cs) lo hi) (t : NodeTable)
    (parent : Option ItemParent) {u : List Byte} {b : Byte} (hat : At (u ++ [b]) d)
    (hlead : ¬(0xf0 ≤ b.toNat ∧ b.toNat ≤ 0xf4))
    (hdigits : ¬(d.escape = .unicode 0 0 ∧ d.pendingHighSurrogate = none))
    (hpair : d.mayNameSurrogate = true → cs ∉ values) :
    ((stringEnumPlan values).pendingCandidate t parent lo hi (textBytes cs).length d).isSome := by
  unfold pendingCandidate
  generalize hu : u ++ [b] = w at hat
  cases hat with
  | boundary n => simp at hu
  | @tail lead bs size lo' hi' bits remaining n shape tails left more =>
    have hshape := utf8LeadShape_some shape
    have hremaining : remaining ≤ 2 := by
      by_contra hmany
      have hnil : bs = [] := List.length_eq_zero_iff.1 (by omega)
      rw [hnil] at hu
      have hb : u = [] ∧ b = lead := by simpa [List.append_eq_singleton_iff] using hu
      rw [hb.2] at hlead
      omega
    unfold JsonStringDecoder.anyPendingScalarSatisfies
    have htail : 64 ^ (remaining - 1) ≤ 64 := by
      calc 64 ^ (remaining - 1) ≤ 64 ^ 1 := Nat.pow_le_pow_right (by decide) (by omega)
        _ = 64 := by decide
    have hfirst : (if bs.isEmpty then hi' - lo' + 1 else 64) ≤ 64 := by
      split <;> omega
    have hcount : (if bs.isEmpty then hi' - lo' + 1 else 64) * 64 ^ (remaining - 1) ≤ 64 * 64 :=
      Nat.mul_le_mul hfirst htail
    have husize : 4096 ≤ usizeMax := by decide
    dsimp only
    rw [JsonStringDecoder.checkedUsize, if_pos (by omega), Option.bind_eq_bind, Option.bind_some,
      JsonStringDecoder.checkedUsize, if_pos (by omega), Option.bind_some, if_neg (by omega)]
    rfl
  | started n => rfl
  | @digits ds v n few value =>
    unfold JsonStringDecoder.anyPendingScalarSatisfies
    dsimp only
    rw [if_neg (by omega)]
    have hpos : 1 ≤ ds.length := by
      by_contra hnone
      have hnil : ds = [] := List.length_eq_zero_iff.1 (by omega)
      subst hnil
      cases value
      exact hdigits ⟨rfl, rfl⟩
    have hcount : 16 ^ (4 - ds.length) ≤ 4096 := by
      calc 16 ^ (4 - ds.length) ≤ 16 ^ 3 := Nat.pow_le_pow_right (by decide) (by omega)
        _ = 4096 := by decide
    have hone : 0 < 16 ^ (4 - ds.length) := Nat.pow_pos (by decide)
    refine pendingUnicode_answers (by omega) fun hstart hstop first last => ?_
    have hcs := hpair (by simp [JsonStringDecoder.mayNameSurrogate]; omega)
    have hspec := h.supplementary_spec t parent first last
    cases hsome : (stringEnumPlan values).supplementaryHasUnseenCandidate parent lo hi
      (textBytes cs).length first last with
    | none =>
      rw [hsome] at hspec
      exact absurd hspec hcs
    | some r => rfl
  | half => rfl
  | halfStarted => rfl
  | @halfDigits ds es hi' v n four high range few value =>
    unfold JsonStringDecoder.anyPendingScalarSatisfies
    dsimp only
    rw [if_neg (by omega)]
    rfl

end StringEnumPlan

/-! ## The frame -/

/-- Where a frame stands after a text. -/
inductive FrameAt (values : List Text) (text : List Byte) (f : StringEnumFrame JsonStringDecoder) : Prop where
  | before (ws : text.dropWhile isWs = []) (fresh : f = .fresh (stringEnumPlan values))
  | body (q : List Byte) (cs : Text) (quoted : text.dropWhile isWs = 0x22 :: q) (started : f.body = true)
      (fed : JsonStringDecoder.new.feed q = some (cs, f.decoder)) (length : f.decodedBytes = (textBytes cs).length)
      (narrowed : (stringEnumPlan values).Narrowed (textBytes cs) f.lo f.hi)

section
variable {values : List Text} {t : NodeTable} {parent : Option ItemParent} {text : List Byte} {b : Byte}
  {f f' : StringEnumFrame JsonStringDecoder}

/-- **A byte keeps the frame where it says it is.** -/
theorem FrameAt.advance (hs : (stringEnumPlan values).Sorted) (hne : values ≠ []) (h : FrameAt values text f)
    (hstep : routeStringEnumByte t (stringEnumPlan values) parent f b = .advanced f') :
    FrameAt values (text ++ [b]) f' := by
  unfold routeStringEnumByte at hstep
  cases h with
  | before ws fresh =>
    subst fresh
    rw [if_pos (show (StringEnumFrame.fresh (stringEnumPlan values)).body = false from rfl)] at hstep
    split at hstep
    · rename_i hb
      cases hstep
      refine .before ?_ rfl
      rw [dropWhile_append_nil _ ws, List.dropWhile_cons, if_pos hb]
      rfl
    · rename_i hb
      split at hstep
      · cases hstep
      · rename_i hquote
        cases hstep
        obtain ⟨hquote, -⟩ := not_or.1 hquote
        refine .body [] [] ?_ rfl rfl rfl (StringEnumPlan.Narrowed.fresh ?_)
        · rw [dropWhile_append_nil _ ws, List.dropWhile_cons, if_neg hb, not_not.1 hquote]
        · simpa [stringEnumPlan] using hne
  | body q cs quoted started fed length narrowed =>
    rw [if_neg (by simp [started])] at hstep
    have hquoted := dropWhile_append_cons [b] quoted
    split at hstep
    · repeat' split at hstep
      all_goals cases hstep
    · split at hstep
      · cases hstep
      · rename_i decoder hpush
        repeat' split at hstep
        all_goals cases hstep
        refine .body (q ++ [b]) cs hquoted started ?_ length narrowed
        rw [JsonStringDecoder.feed_append, fed, Option.bind_some, JsonStringDecoder.feed_cont hpush]
        simp [feed]
      · rename_i c decoder hpush
        have hall := StringEnumPlan.narrowAll_narrowed hs (String.utf8EncodeChar c) narrowed
        rw [length] at hstep
        split at hstep
        · cases hstep
        · rename_i lo hi n hn
          split at hstep
          · cases hstep
          · cases hstep
            rw [hn] at hall
            rw [textBytes_snoc] at hall
            refine .body (q ++ [b]) (cs ++ [c]) hquoted started ?_ hall.2 hall.1
            rw [JsonStringDecoder.feed_append, fed, Option.bind_some, JsonStringDecoder.feed_scalar hpush]
            rfl

theorem FrameAt.read (hs : (stringEnumPlan values).Sorted) (hne : values ≠ []) : ∀ (more : List Byte) {text : List Byte}
    {f f' : StringEnumFrame JsonStringDecoder}, FrameAt values text f →
    readStringEnum t (stringEnumPlan values) parent f more = some f' → FrameAt values (text ++ more) f'
  | [], text, f, f', h, hrun => by
    cases hrun
    rwa [List.append_nil]
  | b :: more, text, f, f', h, hrun => by
    rw [readStringEnum] at hrun
    split at hrun
    · rename_i f₁ hstep
      have := FrameAt.read hs hne more (h.advance hs hne hstep) hrun
      rwa [List.append_assoc] at this
    · cases hrun
    · cases hrun

/-- **A byte is refused only where no admissible member can be completed after it.** -/
theorem FrameAt.refuses (hs : (stringEnumPlan values).Sorted) (h : FrameAt values text f)
    (hstep : routeStringEnumByte t (stringEnumPlan values) parent f b = .rejected) {m : Text} (hm : m ∈ values)
    (hadm : admissible t parent (textBytes m) = true) (more : List Byte) : ¬JsonString m (text ++ b :: more) := by
  intro hjson
  unfold routeStringEnumByte at hstep
  cases h with
  | before ws fresh =>
    subst fresh
    rw [if_pos (show (StringEnumFrame.fresh (stringEnumPlan values)).body = false from rfl)] at hstep
    split at hstep
    · cases hstep
    · rename_i hb
      split at hstep
      · rename_i hbad
        obtain ⟨body, hbody, -⟩ := hjson
        rw [dropWhile_append_nil _ ws, List.dropWhile_cons, if_neg hb] at hbody
        have hne : values ≠ [] := List.ne_nil_of_mem hm
        have hfresh : (stringEnumPlan values).Narrowed [] 0 (stringEnumPlan values).memberCount :=
          StringEnumPlan.Narrowed.fresh (by simpa [stringEnumPlan] using hne)
        rcases hbad with hquote | hunseen
        · exact hquote (List.cons.inj hbody).1
        · refine absurd ((hfresh.hasUnseenCandidate_iff t parent).2 ?_) (by
            show ¬(stringEnumPlan values).hasUnseenCandidate t parent 0 (stringEnumPlan values).memberCount = true
            rw [show (stringEnumPlan values).hasUnseenCandidate t parent 0 (stringEnumPlan values).memberCount =
              false from hunseen]
            exact Bool.false_ne_true)
          exact mem_stringEnumPlan.2 ⟨m, hm, List.nil_prefix, hadm⟩
      · cases hstep
  | body q cs quoted started fed length narrowed =>
    rw [if_neg (by simp [started])] at hstep
    rw [length] at hstep
    rcases hjson.body quoted with ⟨rfl, rfl, hspell⟩ | ⟨tail, rfl, hspell⟩
    · obtain ⟨d, hfeed, hd⟩ := (JsonStringDecoder.feed_iff_spelling q m).2 hspell
      rw [fed] at hfeed
      cases hfeed
      rw [if_pos ⟨rfl, hd⟩] at hstep
      have hexact : (stringEnumPlan values).containsExact f.lo f.hi (textBytes m).length = true :=
        (narrowed.containsExact_iff hs).2 (List.mem_map_of_mem hm)
      have hunseen : (stringEnumPlan values).hasUnseenCandidate t parent f.lo f.hi = true :=
        (narrowed.hasUnseenCandidate_iff t parent).2 (mem_stringEnumPlan.2 ⟨m, hm, List.prefix_refl _, hadm⟩)
      rw [hexact, hunseen] at hstep
      cases hstep
    · obtain ⟨d, hfeed, hd⟩ := (JsonStringDecoder.feed_iff_spelling _ m).2 hspell
      rw [JsonStringDecoder.feed_append, fed, Option.bind_some] at hfeed
      obtain ⟨⟨cs', d'⟩, hrest, heq⟩ := Option.map_eq_some_iff.1 hfeed
      simp only [Prod.mk.injEq] at heq hrest
      obtain ⟨rfl, rfl⟩ := heq
      obtain ⟨done, u, -, -, hat, -⟩ := JsonStringDecoder.feed_split (.boundary 0) fed
      rw [feed] at hrest
      have hquote : ¬(b = 0x22 ∧ f.decoder.atBoundary = true) := by
        rintro ⟨rfl, hboundary⟩
        rw [hat.push_quote hboundary] at hrest
        cases hrest
      rw [if_neg hquote] at hstep
      split at hstep
      · rename_i hpush
        rw [hpush] at hrest
        cases hrest
      · rename_i decoder hpush
        rw [hpush] at hrest
        have hinside := hat.push b
        rw [hpush] at hinside
        cases hinside with
        | cont hinside _ =>
          obtain ⟨c, rest, rfl, hc⟩ := JsonStringDecoder.emits_of_feed hinside (by simp) hrest hd
          have hstarts : cs ++ [c] <+: cs ++ c :: rest := ⟨rest, by simp⟩
          have hgoes : (stringEnumPlan values).canContinue f.lo f.hi (textBytes cs).length = true := by
            refine (narrowed.canContinue_iff hs).2
              (mem_stringEnumPlan.2 ⟨_, hm, textBytes_isPrefix.2 (List.prefix_append _ _), ?_⟩)
            have hpos := List.length_pos_iff.2 (utf8Encode_ne_nil c)
            have hlen := (textBytes_isPrefix.2 hstarts).length_le
            rw [← textBytes_snoc, List.length_append] at hlen
            omega
          have hreach : JsonStringDecoder.new.feed (q ++ [b]) = some (cs, decoder) := by
            rw [JsonStringDecoder.feed_append, fed, Option.bind_some, JsonStringDecoder.feed_cont hpush]
            simp [feed]
          rw [hgoes] at hstep
          split at hstep
          · rename_i hfalse
            cases hfalse
          · split at hstep
            · rename_i hquery
              exact narrowed.pendingCandidate_refuses hs t hreach hquery c hc ⟨_, hm, hstarts, hadm⟩
            · cases hstep
      · rename_i c decoder hpush
        rw [hpush] at hrest
        obtain ⟨⟨rest, d''⟩, -, heq⟩ := Option.map_eq_some_iff.1 hrest
        cases heq
        have hstarts : cs ++ [c] <+: cs ++ c :: rest := ⟨rest, by simp⟩
        have hall := StringEnumPlan.narrowAll_narrowed hs (String.utf8EncodeChar c) narrowed
        split at hstep
        · rename_i hn
          rw [hn, textBytes_snoc] at hall
          exact hall _ (List.mem_map_of_mem hm) (textBytes_isPrefix.2 hstarts)
        · rename_i lo hi n hn
          rw [hn, textBytes_snoc] at hall
          rw [(hall.1.hasUnseenCandidate_iff t parent).2
            (mem_stringEnumPlan.2 ⟨_, hm, textBytes_isPrefix.2 hstarts, hadm⟩)] at hstep
          cases hstep

/-- **A value is closed on the closing quote of a member.** -/
theorem FrameAt.closes (hs : (stringEnumPlan values).Sorted) (h : FrameAt values text f)
    (hstep : routeStringEnumByte t (stringEnumPlan values) parent f b = .closed) :
    ∃ m ∈ values, JsonString m (text ++ [b]) := by
  unfold routeStringEnumByte at hstep
  cases h with
  | before ws fresh =>
    subst fresh
    rw [if_pos (show (StringEnumFrame.fresh (stringEnumPlan values)).body = false from rfl)] at hstep
    split at hstep
    · cases hstep
    · split at hstep <;> cases hstep
  | body q cs quoted started fed length narrowed =>
    rw [if_neg (by simp [started])] at hstep
    split at hstep
    · rename_i hquote
      obtain ⟨rfl, hd⟩ := hquote
      split at hstep
      · cases hstep
      · rename_i hexact
        rw [Bool.not_eq_false, length, narrowed.containsExact_iff hs] at hexact
        obtain ⟨m, hm, heq⟩ := List.mem_map.1 hexact
        rw [textBytes_inj heq] at hm
        exact ⟨cs, hm, q, dropWhile_append_cons [0x22] quoted,
          (JsonStringDecoder.feed_iff_spelling q cs).1 ⟨_, fed, hd⟩⟩
    · split at hstep
      · cases hstep
      · repeat' split at hstep
        all_goals cases hstep
      · repeat' split at hstep
        all_goals cases hstep

/-- A whole string of a member is no longer open, so the byte that makes it one closes the value. -/
theorem FrameAt.not_advanced {m : Text} (hs : (stringEnumPlan values).Sorted) (hne : values ≠ [])
    (h : FrameAt values text f)
    (hjson : JsonString m (text ++ [b])) : routeStringEnumByte t (stringEnumPlan values) parent f b ≠ .advanced f' := by
  intro hstep
  obtain ⟨body, hbody, hspell⟩ := hjson
  cases h.advance hs hne hstep with
  | before ws fresh =>
    rw [ws] at hbody
    cases hbody
  | body q cs quoted started fed length narrowed =>
    rw [quoted] at hbody
    cases (List.cons.inj hbody).2
    obtain ⟨d, hfeed, hd⟩ := (JsonStringDecoder.feed_iff_spelling body m).2 hspell
    obtain ⟨done, u, -, -, hat, -⟩ := JsonStringDecoder.feed_split (.boundary 0) hfeed
    rw [JsonStringDecoder.feed_append, hfeed, Option.bind_some, feed, hat.push_quote hd] at fed
    cases fed

/-- Inside a character that was let through, a member goes on with what the character can still be. -/
theorem FrameAt.finds (hs : (stringEnumPlan values).Sorted) {q : List Byte} {cs : Text} {decoder : JsonStringDecoder}
    (fed : JsonStringDecoder.new.feed q = some (cs, f.decoder)) (hpush : f.decoder.push b = (.cont, decoder))
    (narrowed : (stringEnumPlan values).Narrowed (textBytes cs) f.lo f.hi)
    (hlead : ¬(0xf0 ≤ b.toNat ∧ b.toNat ≤ 0xf4)) (hpair : decoder.mayNameSurrogate = true → cs ∉ values)
    (hgoes : (stringEnumPlan values).canContinue f.lo f.hi (textBytes cs).length = true)
    (hquery : (stringEnumPlan values).pendingCandidate t none f.lo f.hi (textBytes cs).length decoder ≠ some false) :
    ∃ c rest, cs ++ c :: rest ∈ values ∧ decoder.Emits c := by
  have hreach : JsonStringDecoder.new.feed (q ++ [b]) = some (cs, decoder) := by
    rw [JsonStringDecoder.feed_append, fed, Option.bind_some, JsonStringDecoder.feed_cont hpush]
    simp [feed]
  by_cases hbare : decoder.escape = .unicode 0 0 ∧ decoder.pendingHighSurrogate = none
  · obtain ⟨m, hm, hstarts, hlen⟩ := mem_stringEnumPlan.1 ((narrowed.canContinue_iff hs).1 hgoes)
    obtain ⟨rest, rfl⟩ := textBytes_isPrefix.1 hstarts
    cases rest with
    | nil => simp at hlen
    | cons c rest => exact ⟨c, rest, hm, JsonStringDecoder.emits_of_bare hreach hbare c⟩
  · obtain ⟨done, u, -, -, hat, -⟩ := JsonStringDecoder.feed_split (.boundary 0) fed
    have hinside := hat.push b
    rw [hpush] at hinside
    cases hinside with
    | cont hinside _ =>
      obtain ⟨r, hr⟩ := Option.isSome_iff_exists.1 (narrowed.pendingCandidate_answers t none hinside hlead hbare hpair)
      cases r with
      | false => exact absurd hr hquery
      | true =>
        obtain ⟨c, hc, m, hm, ⟨rest, rfl⟩⟩ := narrowed.pendingCandidate_finds hs t hreach hr
        exact ⟨c, rest, by simpa using hm, hc⟩

/-- **Outside an array a byte that is let through can be completed**, but for the two places where the
query is silent. -/
theorem FrameAt.completes (hs : (stringEnumPlan values).Sorted) (hne : values ≠ []) (h : FrameAt values text f)
    (hlead : ¬(0xf0 ≤ b.toNat ∧ b.toNat ≤ 0xf4))
    (hpair : ¬((f.decoder.push b).2.mayNameSurrogate = true ∧
      (stringEnumPlan values).containsExact f.lo f.hi f.decodedBytes = true))
    (hstep : routeStringEnumByte t (stringEnumPlan values) none f b = .advanced f') :
    ∃ m ∈ values, ∃ more, JsonString m (text ++ b :: more) := by
  have hjson : ∀ {m : Text} {q more : List Byte}, (text ++ [b]).dropWhile isWs = 0x22 :: q → Spelling (q ++ more) m →
      JsonString m (text ++ b :: (more ++ [0x22])) := by
    intro m q more hquoted hspell
    refine ⟨q ++ more, ?_, hspell⟩
    have := dropWhile_append_cons (more ++ [0x22]) hquoted
    rwa [List.append_assoc, ← List.append_assoc q] at this
  cases h.advance hs hne hstep with
  | before ws' fresh' =>
    obtain ⟨m, hm⟩ := List.exists_mem_of_ne_nil values hne
    obtain ⟨body, hbody⟩ := exists_spelling m
    refine ⟨m, hm, 0x22 :: (body ++ [0x22]), body, ?_, hbody⟩
    have := dropWhile_append_nil (0x22 :: (body ++ [0x22])) ws'
    rw [List.append_assoc] at this
    exact this
  | body q' cs' quoted' started' fed' length' narrowed' =>
    by_cases hd : f'.decoder.atBoundary = true
    · obtain ⟨m, hm, hstarts⟩ := mem_stringEnumPlan.1 narrowed'.exists_member
      obtain ⟨rest, rfl⟩ := textBytes_isPrefix.1 hstarts
      obtain ⟨more, hmore⟩ := JsonStringDecoder.spelling_of_boundary fed' hd rest
      exact ⟨_, hm, _, hjson quoted' hmore⟩
    · suffices hfinds : ∃ c rest, cs' ++ c :: rest ∈ values ∧ f'.decoder.Emits c by
        obtain ⟨c, rest, hm, hc⟩ := hfinds
        obtain ⟨more, hmore⟩ := JsonStringDecoder.spelling_of_emits fed' hc rest
        exact ⟨_, hm, _, hjson quoted' hmore⟩
      unfold routeStringEnumByte at hstep
      cases h with
      | before ws fresh =>
        subst fresh
        rw [if_pos (show (StringEnumFrame.fresh (stringEnumPlan values)).body = false from rfl)] at hstep
        repeat' split at hstep
        all_goals cases hstep
        all_goals exact absurd rfl hd
      | body q cs quoted started fed length narrowed =>
        rw [if_neg (by simp [started])] at hstep
        rw [length] at hstep hpair
        rw [dropWhile_append_cons [b] quoted] at quoted'
        have hq : q' = q ++ [b] := (List.cons.inj quoted').2.symm
        split at hstep
        · repeat' split at hstep
          all_goals cases hstep
        · split at hstep
          · cases hstep
          · rename_i decoder hpush
            rw [hpush, narrowed.containsExact_iff hs] at hpair
            split at hstep
            · cases hstep
            · rename_i hgoes
              split at hstep
              · cases hstep
              · rename_i hquery
                cases hstep
                rw [hq, JsonStringDecoder.feed_append, fed, Option.bind_some, JsonStringDecoder.feed_cont hpush] at fed'
                have hcs : cs' = cs := by simpa [feed] using (congrArg Prod.fst (Option.some.inj fed')).symm
                rw [hcs]
                refine FrameAt.finds hs fed hpush narrowed hlead (fun hmay hmem => ?_) (by simpa using hgoes) hquery
                exact hpair ⟨hmay, List.mem_map_of_mem hmem⟩
          · rename_i c decoder hpush
            obtain ⟨done, u, -, -, hat, -⟩ := JsonStringDecoder.feed_split (.boundary 0) fed
            have hinside := hat.push b
            rw [hpush] at hinside
            cases hinside
            repeat' split at hstep
            all_goals cases hstep
            exact absurd rfl hd

/-- **A string enum accepts its members and refuses what spells none.**  In every state a text leads to, a byte is
refused only where no admissible member can be completed after it.  Outside an array the closing quote is taken iff the
text is a spelling of a member, and any byte that no member can be completed after is refused, a four-byte lead apart,
which is judged with the byte after it, and the digits of an escape where a member has ended. -/
theorem string_enum_exact {values : List Text} (hs : (stringEnumPlan values).Sorted) (hne : values ≠ []) (t : NodeTable)
    (parent : Option ItemParent) {text : List Byte} {f : StringEnumFrame JsonStringDecoder}
    (hrun : readStringEnum t (stringEnumPlan values) parent (.fresh (stringEnumPlan values)) text = some f) (b : Byte) :
    (routeStringEnumByte t (stringEnumPlan values) parent f b = .rejected → ∀ m ∈ values,
      admissible t parent (textBytes m) = true → ∀ more, ¬JsonString m (text ++ b :: more)) ∧
    (parent = none → (routeStringEnumByte t (stringEnumPlan values) parent f b = .closed ↔
      ∃ m ∈ values, JsonString m (text ++ [b]))) ∧
    (parent = none → ¬(0xf0 ≤ b.toNat ∧ b.toNat ≤ 0xf4) → ¬((f.decoder.push b).2.mayNameSurrogate = true ∧
        (stringEnumPlan values).containsExact f.lo f.hi f.decodedBytes = true) →
      (∀ m ∈ values, ∀ more, ¬JsonString m (text ++ b :: more)) →
        routeStringEnumByte t (stringEnumPlan values) parent f b = .rejected) := by
  have hfresh : FrameAt values [] (.fresh (stringEnumPlan values)) := .before rfl rfl
  have hat : FrameAt values text f := hfresh.read hs hne text hrun
  refine ⟨fun hstep m hm hadm more => hat.refuses hs hstep hm hadm more, ?_, ?_⟩
  · rintro rfl
    refine ⟨hat.closes hs, ?_⟩
    rintro ⟨m, hm, hjson⟩
    cases hstep : routeStringEnumByte t (stringEnumPlan values) none f b with
    | closed => rfl
    | advanced f' => exact absurd hstep (hat.not_advanced hs hne hjson)
    | rejected => exact absurd hjson (hat.refuses hs hstep hm rfl [])
  · rintro rfl hlead hpair hnone
    cases hstep : routeStringEnumByte t (stringEnumPlan values) none f b with
    | rejected => rfl
    | closed =>
      obtain ⟨m, hm, hjson⟩ := hat.closes hs hstep
      exact absurd hjson (hnone m hm [])
    | advanced f' =>
      obtain ⟨m, hm, more, hjson⟩ := hat.completes hs hne hlead hpair hstep
      exact absurd hjson (hnone m hm more)

end

def noNodes : NodeTable := ⟨[], 0, none⟩

/-- `ab` is closed behind an escape of its first letter, and no member goes on there with another letter. -/
theorem string_enum_exact_escaped :
    (∃ m ∈ [['a'], ['a', 'b']], JsonString m (0x22 :: unicodeEscape [0x30, 0x30, 0x36, 0x31] ++ [0x62] ++ [0x22])) ∧
      ∀ m ∈ [['a'], ['a', 'b']], ∀ more,
        ¬JsonString m (0x22 :: unicodeEscape [0x30, 0x30, 0x36, 0x31] ++ 0x63 :: more) := by
  have hsorted : (stringEnumPlan [['a'], ['a', 'b']]).Sorted := by
    unfold StringEnumPlan.Sorted
    decide
  have hclosing : readStringEnum noNodes (stringEnumPlan [['a'], ['a', 'b']]) none
      (.fresh (stringEnumPlan [['a'], ['a', 'b']])) (0x22 :: unicodeEscape [0x30, 0x30, 0x36, 0x31] ++ [0x62]) =
        some ⟨true, ⟨.none, .start, none, 2⟩, 1, 2, 2⟩ := by decide +kernel
  have hinside : readStringEnum noNodes (stringEnumPlan [['a'], ['a', 'b']]) none
      (.fresh (stringEnumPlan [['a'], ['a', 'b']])) (0x22 :: unicodeEscape [0x30, 0x30, 0x36, 0x31]) =
        some ⟨true, ⟨.none, .start, none, 1⟩, 0, 2, 1⟩ := by decide +kernel
  constructor
  · exact ((string_enum_exact hsorted (List.cons_ne_nil _ _) noNodes none hclosing 0x22).2.1 rfl).1 (by decide +kernel)
  · exact fun m hm more =>
      (string_enum_exact hsorted (List.cons_ne_nil _ _) noNodes none hinside 0x63).1 (by decide +kernel) m hm rfl more

/-- **The lead of a four-byte character is let through**, though the only member is `a`. -/
theorem string_enum_lead_waits :
    ∃ f f', readStringEnum noNodes (stringEnumPlan [['a']]) none (.fresh (stringEnumPlan [['a']]))
      [0x22] = some f ∧ routeStringEnumByte noNodes (stringEnumPlan [['a']]) none f 0xf0 = .advanced f' ∧
    ∀ m ∈ [['a']], ∀ more, ¬JsonString m ([0x22] ++ 0xf0 :: more) := by
  refine ⟨_, _, rfl, rfl, ?_⟩
  intro m hm more hjson
  cases List.mem_singleton.1 hm
  rcases hjson.body rfl with ⟨-, hb, -⟩ | ⟨tail, -, units, hall, hflat⟩
  · cases hb
  · cases hall with
    | cons hspells hrest =>
      cases hrest
      rw [List.flatten_cons, List.flatten_nil, List.append_nil] at hflat
      subst hflat
      have hhead : ∀ {u : List Byte} {c : Char}, Spells u c → c = 'a' → u.head? ≠ some 0xf0 := by
        intro u c h
        cases h with
        | raw => rintro rfl; decide
        | short | unicode | pair => exact fun _ => by simp [unicodeEscape]
      exact hhead hspells rfl rfl

end MaskForge
