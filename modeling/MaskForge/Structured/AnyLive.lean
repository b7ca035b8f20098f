import MaskForge.Structured.AnyExact
/-!
# AnyLive — when an unconstrained value can still be completed

A state the machine is in can be completed, but for two: inside an escape whose digits name a half of a surrogate
pair where it cannot stand, which is refused at its fourth digit, and after a name the object has, which is
refused at its colon.
-/
namespace MaskForge
namespace AnyJson

open Derivative Language

/-! ## What can go on -/

theorem nonempty_mul {L M : Language Byte} (hL : ∃ w, w ∈ L) (hM : ∃ w, w ∈ M) : ∃ w, w ∈ L * M := by
  obtain ⟨u, hu⟩ := hL
  obtain ⟨v, hv⟩ := hM
  exact ⟨u ++ v, append_mem_mul hu hv⟩

theorem nonempty_spaces : ∃ w, w ∈ spaces := ⟨[], nil_mem_letters⟩

theorem nonempty_word (u : List Byte) : ∃ w, w ∈ word u := ⟨u, rfl⟩

theorem nonempty_values : ∃ w, w ∈ values := ⟨_, .null, .null, trivial⟩

theorem nonempty_arrayTail : ∃ w, w ∈ arrayTail := nonempty_mul nonempty_spaces ⟨[0x5d], (mem_add _ _ _).2 (.inl rfl)⟩

theorem nonempty_objectTail (names : List Text) : ∃ w, w ∈ objectTail names :=
  nonempty_mul nonempty_spaces ⟨[0x7d], (mem_add _ _ _).2 (.inl rfl)⟩

theorem nonempty_numberLang (p : NumberPhase) : ∃ w, w ∈ numberLang p := by
  have hzero : ∀ b ∈ ([0x30] : List Byte), Decimal.IsDigit b := fun b hb => by
    rw [List.mem_singleton.1 hb]
    decide
  have hdigits₁ : ∃ w, w ∈ digits₁ := ⟨[0x30], by decide, hzero⟩
  have hdigits : ∃ w, w ∈ digits := ⟨[], nil_mem_digits⟩
  have hexponent : ∃ w, w ∈ optExponent := ⟨[], nil_mem_optExponent⟩
  have hrest : ∃ w, w ∈ optFraction * optExponent := nonempty_mul ⟨[], nil_mem_optFraction⟩ hexponent
  cases p with
  | intFirst => exact nonempty_mul ⟨[0x30], .inl rfl⟩ hrest
  | intRest leadingZero =>
    cases leadingZero with
    | true => exact hrest
    | false => exact nonempty_mul hdigits hrest
  | fracFirst => exact nonempty_mul hdigits₁ hexponent
  | fracRest => exact nonempty_mul hdigits hexponent
  | expSign => exact nonempty_mul ⟨[], .inl rfl⟩ hdigits₁
  | expFirst => exact hdigits₁
  | expRest => exact hdigits

theorem nonempty_scalarLang (phase : ScalarPhase) : ∃ w, w ∈ scalarLang phase := by
  cases phase with
  | beforeValue => exact nonempty_mul nonempty_spaces nonempty_values
  | number p => exact nonempty_numberLang p
  | literalDone => exact ⟨[], rfl⟩
  | trueAt | falseAt | nullAt => exact nonempty_word _

theorem nonempty_memberRest {names : List Text} {name : Text} (h : (names ++ [name]).Nodup) :
    ∃ w, w ∈ memberRest names name := by
  rw [memberRest_fresh h]
  exact nonempty_mul nonempty_spaces (nonempty_mul (nonempty_word _) (nonempty_mul nonempty_spaces
    (nonempty_mul nonempty_values (nonempty_objectTail _))))

/-! ### Names -/

theorem spelling_letters : ∀ n : Nat, Spelling (List.replicate n 0x6e) (List.replicate n 'n')
  | 0 => Spelling.nil
  | n + 1 => (Spelling.single (.raw 'n' (by decide) (by decide) (by decide))).append (spelling_letters n)

/-- **Letters can be added to a text until it is none of some names.** -/
theorem exists_fresh (names : List Text) (text : Text) : ∃ n, text ++ List.replicate n 'n' ∉ names := by
  refine ⟨(names.map List.length).sum + 1, fun hmem => ?_⟩
  have hle := List.le_sum_of_mem (List.mem_map_of_mem (f := List.length) hmem)
  rw [List.length_append, List.length_replicate] at hle
  omega

/-- A body that can be completed can be completed to any of its longer texts. -/
theorem feed_of_viable {d : JsonStringDecoder} {cs : Text} {p : List Byte}
    (hp : JsonStringDecoder.new.feed p = some (cs, d))
    (hd : ¬ d.doomed) : ∃ text : Text, ∀ n, ∃ body cs' d', d.feed body = some (cs', d') ∧ d'.atBoundary = true ∧
      cs ++ cs' = text ++ List.replicate n 'n' := by
  obtain ⟨more, text, hmore⟩ := (JsonStringDecoder.viable_iff_not_doomed hp).1.2 hd
  refine ⟨text, fun n => ?_⟩
  obtain ⟨d', hfeed, hd'⟩ := (JsonStringDecoder.feed_iff_spelling _ _).2 (hmore.append (spelling_letters n))
  rw [List.append_assoc, JsonStringDecoder.feed_append, hp, Option.bind_some] at hfeed
  obtain ⟨⟨cs', d''⟩, hbody, heq⟩ := Option.map_eq_some_iff.1 hfeed
  obtain ⟨htext, rfl⟩ := Prod.mk.inj heq
  exact ⟨_, cs', _, hbody, hd', htext⟩

/-- Nothing completes a string after digits that cannot stand. -/
theorem bodyThen_doomed {d : JsonStringDecoder} {cs : Text} (h : Begun d cs) (hd : d.doomed)
    (rest : Text → Language Byte) :
    bodyThen d rest = 0 := by
  obtain ⟨p, hp⟩ := h
  refine eq_zero_iff.2 ?_
  rintro _ ⟨body, cs', d', v, hfeed, hd', -, rfl⟩
  refine (JsonStringDecoder.viable_iff_not_doomed hp).1.1 ?_ hd
  refine ⟨body, cs ++ cs', (JsonStringDecoder.feed_iff_spelling _ _).1 ⟨d', ?_, hd'⟩⟩
  rw [JsonStringDecoder.feed_append, hp, Option.bind_some, hfeed]
  rfl

/-! ## Two places that cannot -/

/-- The decoder of the string, or of the name, that a frame is inside of. -/
def decoderOf : AnyFrame → Option JsonStringDecoder
  | .stringBody d _ => some d
  | .object o => if o.phase = .inKey then some o.keyDecoder else none
  | _ => none

/-- The digits of an escape name a half of a surrogate pair where it cannot stand. -/
def InDoomedEscape (s : AnyState) : Prop := ∃ f below d, s.frames = f :: below ∧ decoderOf f = some d ∧ d.doomed

/-- The object has the name that was read; its colon will be refused. -/
def AtRepeatedName (env : AnyEnv) (s : AnyState) : Prop :=
  ∃ o below, s.frames = .object o :: below ∧ o.phase = .afterKeyBeforeColon ∧
    s.keys.resolveKey env.keys (textBytes o.key) true = .ok none

section States
variable {env : AnyEnv} {s : AnyState} {stack below : List (AnyFrame × List Text)} {names : List Text} {closed : Bool}

/-- Every frame that waits can be closed. -/
theorem nonempty_waiting :
    ∀ {stack : List (AnyFrame × List Text)}, (∀ g ∈ stack, Waiting g.1) → ∃ w, w ∈ stackLang stack
  | [], _ => nonempty_spaces
  | (f, names) :: below, h => by
    rw [List.forall_mem_cons] at h
    refine nonempty_mul ?_ (nonempty_waiting h.2)
    have hf : Waiting f := h.1
    cases f with
    | array phase items =>
      cases phase with
      | afterValue => exact nonempty_arrayTail
      | _ => exact hf.elim
    | object o =>
      have hphase : o.phase = .afterValueBeforeCommaOrClose := hf
      rw [frameLang, objectLang, hphase]
      exact nonempty_objectTail names
    | _ => exact hf.elim

theorem KeysOf.nodup {o : AnyObjectState} {keys : KeyState} (h : KeysOf env keys ((.object o, names) :: below) closed) :
    names.Nodup := by
  obtain ⟨fed, h⟩ := h
  have hfed := h.fed
  cases hfed with
  | object below hkeys =>
    obtain ⟨fs, kf, -, -, hok⟩ := forall₂_append_singleton h.inv.frames.flip
    cases hok with
    | object hok =>
      have hnodup := hok.nodup
      rw [hkeys] at hnodup
      exact List.Nodup.of_map _ hnodup
  | other below hnot => exact absurd rfl (hnot o)

/-- A name the object has is found in its bucket. -/
theorem KeysOf.resolveKey_repeated {o : AnyObjectState} {keys : KeyState} {key : Text}
    (h : KeysOf env keys ((.object o, names) :: below) closed) (hkey : key ∈ names) :
    keys.resolveKey env.keys (textBytes key) true = .ok none := by
  obtain ⟨fed, h⟩ := h
  have hfed := h.fed
  cases hfed with
  | @object _ _ _ r ms below hkeys =>
    obtain ⟨fs, kf, hfs, -, hok⟩ := forall₂_append_singleton h.inv.frames.flip
    cases hok with
    | @object ok _ hok =>
    have hlast : keys.core.frames.getLast? = some (.object ok) := by
      rw [hfs, List.getLast?_append]
      rfl
    have hknown : ok.knownByName = [] := h.unnamed ok (by
      rw [hfs]
      exact List.mem_append_right _ (List.mem_singleton_self _))
    have hmem : textBytes key ∈ ms.map Member.key := by
      rw [hkeys]
      exact List.mem_map_of_mem hkey
    obtain ⟨m, hm, hmkey⟩ := List.mem_map.1 hmem
    cases hmid : m.id with
    | none =>
      obtain ⟨i, hi, -⟩ := hok.known m hm hmid
      rw [hknown] at hi
      cases hi
    | some id =>
      obtain ⟨-, slot, hslot, hid⟩ := hok.slot m hm id hmid
      have hget := (hok.stored m hm id hmid).get (Nat.lt_of_le_of_lt h.inv.bytes env.fits)
      rw [hmkey] at hslot hget
      have hdup : ((ok.seenDynamic (env.keys.hash (textBytes key))).any fun slot =>
          slot.ids.any fun id => keys.core.arena.get id == some (textBytes key)) = true := by
        rw [hslot, Option.any_some, List.any_eq_true]
        exact ⟨id, hid, by rw [hget]; exact beq_self_eq_true _⟩
      have hclassify : classifyKeyIntern env.keys.limits keys.core.arena ok.seenDynamic (textBytes key)
          (env.keys.hash (textBytes key)) = .ok none := by
        rw [classifyKeyIntern, if_pos hdup]
      unfold KeyState.resolveKey
      rw [hlast]
      dsimp only
      rw [hknown, List.lookup_nil]
      dsimp only
      rw [KeyState.internDynamicKey, hclassify]
      rfl
  | other below hnot => exact absurd rfl (hnot o)

theorem not_nodup_iff {name : Text} (h : names.Nodup) : ¬ (names ++ [name]).Nodup ↔ name ∈ names := by
  rw [List.nodup_append']
  simp [h]

/-- A frame that is neither is completed, whatever names the object has. -/
theorem nonempty_frameLang {f : AnyFrame} (hformed : Formed f) (hnodup : names.Nodup)
    (hescape : ∀ d, decoderOf f = some d → ¬ d.doomed)
    (hname : ∀ o, f = .object o → o.phase = .afterKeyBeforeColon → o.key ∉ names) : ∃ w, w ∈ frameLang names f := by
  have hfresh : ∀ {name : Text}, name ∉ names → (names ++ [name]).Nodup := fun hname =>
    not_not.1 fun hnot => hname ((not_nodup_iff hnodup).1 hnot)
  have hmembers : ∃ w, w ∈ members names * word [0x7d] := by
    obtain ⟨n, hn⟩ := exists_fresh names []
    obtain ⟨v, hv⟩ := nonempty_memberRest (hfresh hn)
    obtain ⟨d, hfeed, hd⟩ := (JsonStringDecoder.feed_iff_spelling _ _).2 (spelling_letters n)
    rw [members_close]
    exact nonempty_mul nonempty_spaces (nonempty_mul (nonempty_word _) ⟨_, _, _, d, v, hfeed, hd, hv, rfl⟩)
  cases f with
  | scalar phase bytes => exact nonempty_scalarLang phase
  | stringBody d bytes =>
    obtain ⟨cs, p, hp⟩ := hformed
    obtain ⟨text, htext⟩ := feed_of_viable hp (hescape d rfl)
    obtain ⟨body, cs', d', hbody, hd', -⟩ := htext 0
    exact ⟨_, body, cs', d', [], hbody, hd', nil_mem_one, rfl⟩
  | array phase items =>
    cases phase with
    | beforeFirstOrClose => exact nonempty_mul ⟨[], .inl nil_mem_letters⟩ (nonempty_word _)
    | afterValue => exact nonempty_arrayTail
    | afterComma =>
      rw [frameLang, arrayLang, items_close]
      exact nonempty_mul nonempty_spaces (nonempty_mul nonempty_values nonempty_arrayTail)
  | object o =>
    rw [frameLang, objectLang]
    cases hphase : o.phase with
    | start => exact absurd hphase hformed.1
    | beforeFirstKeyOrClose => exact nonempty_mul ⟨[], .inl nil_mem_letters⟩ (nonempty_word _)
    | inKey =>
      obtain ⟨p, hp⟩ := hformed.2 hphase
      obtain ⟨text, htext⟩ := feed_of_viable hp (hescape o.keyDecoder (if_pos hphase))
      obtain ⟨n, hn⟩ := exists_fresh names text
      obtain ⟨body, cs', d', hbody, hd', heq⟩ := htext n
      rw [← heq] at hn
      obtain ⟨v, hv⟩ := nonempty_memberRest (hfresh hn)
      exact ⟨_, body, cs', d', v, hbody, hd', hv, rfl⟩
    | afterKeyBeforeColon => exact nonempty_memberRest (hfresh (hname o rfl hphase))
    | afterColonBeforeValue =>
      exact nonempty_mul nonempty_spaces (nonempty_mul nonempty_values (nonempty_objectTail names))
    | afterValueBeforeCommaOrClose => exact nonempty_objectTail names
    | afterCommaBeforeKey => exact hmembers

/-- Nothing completes a frame whose decoder is inside a doomed escape. -/
theorem frameLang_doomed {f : AnyFrame} (hformed : Formed f) {d : JsonStringDecoder} (hf : decoderOf f = some d)
    (hd : d.doomed) :
    frameLang names f = 0 := by
  cases f with
  | stringBody d' bytes =>
    cases hf
    obtain ⟨cs, hbegun⟩ := hformed
    exact bodyThen_doomed hbegun hd _
  | object o =>
    simp only [decoderOf] at hf
    split_ifs at hf with hphase
    cases hf
    rw [frameLang, objectLang, hphase]
    exact bodyThen_doomed (hformed.2 hphase) hd _
  | _ => cases hf

/-- **A state can be completed exactly if it is in neither place.** -/
theorem Reads.completes_iff (h : Reads env s stack false) :
    (∃ w, w ∈ stackLang stack) ↔ ¬ InDoomedEscape s ∧ ¬ AtRepeatedName env s := by
  have hframes := h.frames
  cases stack with
  | nil =>
    refine iff_of_true nonempty_spaces ⟨?_, ?_⟩
    · rintro ⟨f, below, d, hs, -⟩
      cases hframes.symm.trans hs
    · rintro ⟨o, below, hs, -⟩
      cases hframes.symm.trans hs
  | cons g below =>
    obtain ⟨f, names⟩ := g
    obtain ⟨hformed, hwaiting⟩ := h.ok
    have hnodup : names.Nodup := by
      by_cases hobject : ∃ o, f = .object o
      · obtain ⟨o, rfl⟩ := hobject
        exact h.keys.nodup
      · rw [h.keys.names_eq_nil fun o ho => hobject ⟨o, ho⟩]
        exact List.nodup_nil
    constructor
    · rintro ⟨_, hw⟩
      obtain ⟨u, hu, -⟩ := mem_mul.1 hw
      refine ⟨?_, ?_⟩
      · rintro ⟨f', below', d, hs, hd, hdoomed⟩
        cases hframes.symm.trans hs
        rw [frameLang_doomed hformed hd hdoomed] at hu
        exact notMem_zero u hu
      · rintro ⟨o, below', hs, hphase, hresolve⟩
        cases hframes.symm.trans hs
        rw [frameLang, objectLang, hphase] at hu
        exact h.keys.resolveKey hresolve hu.1
    · rintro ⟨hescape, hname⟩
      refine nonempty_mul (nonempty_frameLang hformed hnodup (fun d hd hdoomed => ?_) fun o ho hphase hmem => ?_)
        (nonempty_waiting hwaiting)
      · exact hescape ⟨f, _, d, hframes, hd, hdoomed⟩
      · subst ho
        exact hname ⟨o, _, hframes, hphase, h.keys.resolveKey_repeated hmem⟩

end States

/-! ## Late refusals -/

section Late
variable {env : AnyEnv} {s s' : AnyState} {b : Byte}

/-- A byte goes to the innermost frame, and is taken there unless it ends the frame's value. -/
theorem advance_top {f : AnyFrame} {below : List AnyFrame} (hroot : s.rootClosed = false)
    (hframes : s.frames = f :: below)
    (hpop : ∀ t, AnyJson.routeAnyByte env { s with documentBytes := s.documentBytes + 1 } b ≠ .ok (.popped t))
    (h : advance env s b = .ok (some s')) :
    ∃ t, AnyJson.routeAnyByte env { s with documentBytes := s.documentBytes + 1 } b = .ok (.advanced t) ∧
    s'.frames = t.frames ∧
      s'.rootClosed = t.rootClosed ∧ s'.keys = t.keys.commit := by
  obtain ⟨routed, hroute, hs⟩ := advance_ok h
  have hlen : s.frames.length = below.length + 1 := by
    rw [hframes]
    rfl
  rw [AnyJson.routeByte, if_neg (by simp [hroot])] at hroute
  dsimp only at hroute
  rw [hlen, AnyJson.routeLoop] at hroute
  obtain ⟨step, hstep, hroute⟩ := bind_ok hroute
  cases step with
  | rejected =>
    cases hroute
    cases hs
  | advanced t =>
    cases hroute
    cases hs
    exact ⟨t, hstep, rfl, rfl, rfl⟩
  | popped t => exact absurd hstep (hpop t)

/-- Inside of a character the decoder of the frame takes the byte. -/
theorem advance_decoder {f : AnyFrame} {below : List AnyFrame} {d : JsonStringDecoder} (hroot : s.rootClosed = false)
    (hframes : s.frames = f :: below) (hf : decoderOf f = some d) (hd : d.atBoundary = false)
    (h : advance env s b = .ok (some s')) :
    (d.push b).1 ≠ .invalid ∧ s'.rootClosed = false ∧ ∃ f', s'.frames = f' :: below ∧
    decoderOf f' = some (d.push b).2 := by
  have hquote : ¬(b = 0x22 ∧ d.atBoundary = true) := fun h => by cases hd.symm.trans h.2
  have hresult : ∀ t step, t.frames = f :: below → AnyJson.routeAnyByte env t b = .ok step → step = .rejected ∨
      (d.push b).1 ≠ .invalid ∧ ∃ t' f', step = .advanced t' ∧ t'.rootClosed = t.rootClosed ∧ t'.frames = f' :: below ∧
        decoderOf f' = some (d.push b).2 := by
    intro t step ht hstep
    unfold AnyJson.routeAnyByte at hstep
    rw [ht] at hstep
    cases f with
    | stringBody d' bytes =>
      cases hf
      dsimp only at hstep
      unfold routeAnyStringByte at hstep
      rw [if_neg hquote] at hstep
      cases hpush : d.push b with
      | mk decoded next =>
        rw [hpush] at hstep
        cases decoded with
        | invalid =>
          cases hstep
          exact .inl rfl
        | cont | scalar =>
          obtain ⟨n, -, hstep⟩ := bind_ok hstep
          split_ifs at hstep
          cases hstep
          exact .inr ⟨nofun, _, _, rfl, rfl, rfl, rfl⟩
    | object o =>
      simp only [decoderOf] at hf
      split_ifs at hf with hphase
      cases hf
      dsimp only at hstep
      unfold routeAnyObjectByte at hstep
      rw [hphase] at hstep
      dsimp only at hstep
      unfold pushAnyKeyByte at hstep
      rw [if_neg hquote] at hstep
      cases hpush : o.keyDecoder.push b with
      | mk decoded next =>
        rw [hpush] at hstep
        cases decoded with
        | invalid =>
          cases hstep
          exact .inl rfl
        | cont =>
          cases hstep
          exact .inr ⟨nofun, _, _, rfl, rfl, rfl, if_pos hphase⟩
        | scalar c =>
          dsimp only at hstep
          split_ifs at hstep
          cases hstep
          exact .inr ⟨nofun, _, _, rfl, rfl, rfl, if_pos hphase⟩
    | _ => cases hf
  have hrouted := fun step => hresult { s with documentBytes := s.documentBytes + 1 } step hframes
  have hpop : ∀ t, AnyJson.routeAnyByte env { s with documentBytes := s.documentBytes + 1 } b ≠ .ok (.popped t) :=
    fun t hstep => by
    rcases hrouted _ hstep with h | ⟨-, _, _, h, -⟩ <;> cases h
  obtain ⟨t, hstep, hframes', hroot', -⟩ := advance_top hroot hframes hpop h
  rcases hrouted _ hstep with h | ⟨hpush, t', f', heq, hclosed, ht', hf'⟩
  · cases h
  · cases heq
    exact ⟨hpush, hroot'.trans (hclosed.trans hroot), f', hframes'.trans ht', hf'⟩

/-- **A doomed escape is refused by its fourth digit.** -/
theorem doomed_run : ∀ {more : List Byte} {s s' : AnyState} {f : AnyFrame} {below : List AnyFrame}
    {d : JsonStringDecoder} {k v : Nat},
    s.rootClosed = false → s.frames = f :: below → decoderOf f = some d → d.escape = .unicode k v → k < 4 → d.doomed →
    4 ≤ k + more.length → run env s more ≠ .ok (some s')
  | [], s, s', f, below, d, k, v, _, _, _, _, hk, _, hlen => by
    rw [List.length_nil] at hlen
    omega
  | b :: more, s, s', f, below, d, k, v, hroot, hframes, hf, hescape, hk, hdoomed, hlen => by
    intro hrun
    rw [run, Derivative.run] at hrun
    cases hstep : advance env s b with
    | error e =>
      rw [hstep] at hrun
      cases hrun
    | ok r =>
      rw [hstep] at hrun
      cases r with
      | none => cases hrun
      | some t =>
        have hboundary : d.atBoundary = false := by simp [JsonStringDecoder.atBoundary, hescape]
        obtain ⟨hpush, hroot', f', hframes', hf'⟩ := advance_decoder hroot hframes hf hboundary hstep
        rcases JsonStringDecoder.doomed_push hescape hk hdoomed b with hinvalid | ⟨hmore, -, v', hescape', hdoomed'⟩
        · exact hpush hinvalid
        · rw [List.length_cons] at hlen
          exact doomed_run hroot' hframes' hf' hescape' hmore hdoomed' (by omega) hrun

/-- After a repeated name only white space is taken. -/
theorem repeated_run : ∀ {more : List Byte} {s s' : AnyState} {o : AnyObjectState} {names : List Text}
    {below : List (AnyFrame × List Text)}, Reads env s ((.object o, names) :: below) false →
    o.phase = .afterKeyBeforeColon →
    ¬ (names ++ [o.key]).Nodup → run env s more = .ok (some s') → Whitespace more
  | [], _, _, _, _, _, _, _, _, _ => fun _ hb => absurd hb List.not_mem_nil
  | b :: more, s, s', o, names, below, h, hphase, hrepeated, hrun => by
    rw [run, Derivative.run] at hrun
    cases hstep : advance env s b with
    | error e =>
      rw [hstep] at hrun
      cases hrun
    | ok r =>
      rw [hstep] at hrun
      cases r with
      | none => cases hrun
      | some t =>
        let s₁ : AnyState := { s with documentBytes := s.documentBytes + 1 }
        have hreads : Reads env s₁ ((.object o, names) :: below) false := ⟨h.frames, h.ok, h.keys, h.root⟩
        have hrouted : ∀ step, AnyJson.routeAnyByte env s₁ b = .ok step → step = .rejected ∨ isWs b = true ∧
          step = .advanced s₁ := by
          intro step hstep
          unfold AnyJson.routeAnyByte at hstep
          rw [hreads.frames] at hstep
          simp only [List.map_cons, routeAnyObjectByte, hphase] at hstep
          by_cases hb : isWs b
          · rw [if_pos hb] at hstep
            cases hstep
            exact .inr ⟨hb, rfl⟩
          rw [if_neg hb] at hstep
          split_ifs at hstep with hcolon
          · cases hstep
            exact .inl rfl
          have hname : o.key ∈ names := (not_nodup_iff hreads.keys.nodup).1 hrepeated
          rw [resolveAnyColon, hreads.keys.resolveKey_repeated hname] at hstep
          cases hstep
          exact .inl rfl
        have hpop : ∀ t, AnyJson.routeAnyByte env s₁ b ≠ .ok (.popped t) := fun t hstep => by
          rcases hrouted _ hstep with h | ⟨-, h⟩ <;> cases h
        obtain ⟨t', hroute, hframes, hroot, hkeys⟩ := advance_top h.root h.frames hpop hstep
        rcases hrouted _ hroute with heq | ⟨hb, heq⟩
        · cases heq
        · cases heq
          have hkeep : KeysOf env t.keys ((.object o, names) :: below) false := by
            rw [hkeys]
            exact h.keys.commit
          have ht : Reads env t ((.object o, names) :: below) false :=
            ⟨hframes.trans hreads.frames, h.ok, hkeep, hroot.trans hreads.root⟩
          rw [Whitespace, List.forall_mem_cons]
          exact ⟨isWs_iff.1 hb, repeated_run ht hphase hrepeated hrun⟩

end Late

/-! ## A value that ends leaves the byte to one frame -/

/-- The state after a step, if the byte was taken. -/
def takenOf : AnyStep → Option AnyState
  | .advanced s => some s
  | _ => none

/-- The frame below a scalar that ends reads the byte, and no other does. -/
theorem waiting_not_popped {env : AnyEnv} {s s' : AnyState} {f : AnyFrame} {below : List AnyFrame} {b : Byte}
    (hf : Waiting f) (hs : s.frames = f :: below) : AnyJson.routeAnyByte env s b ≠ .ok (.popped s') := by
  intro h
  unfold AnyJson.routeAnyByte at h
  rw [hs] at h
  cases f with
  | array phase items =>
    cases phase with
    | afterValue =>
      simp only [routeAnyArrayByte] at h
      split_ifs at h <;> cases h
    | _ => exact hf.elim
  | object o =>
    have hphase : o.phase = .afterValueBeforeCommaOrClose := hf
    simp only [routeAnyObjectByte, hphase] at h
    split_ifs at h <;> cases h
  | _ => exact hf.elim

/-- The byte ends the value of the innermost frame and goes to the frame below, which does not pass it on. -/
def HandsOver (env : AnyEnv) (s : AnyState) (b : Byte) : Prop :=
  ∃ t, AnyJson.routeAnyByte env s b = .ok (.popped t) ∧ t.frames = s.frames.tail ∧
    (t.frames = [] → routeByte env s b = .ok (if isWs b then some t else none)) ∧
    (t.frames ≠ [] → (∀ t', AnyJson.routeAnyByte env t b ≠ .ok (.popped t')) ∧
      routeByte env s b = (AnyJson.routeAnyByte env t b).map takenOf)

theorem Reads.handsOver {env : AnyEnv} {s : AnyState} {phase : ScalarPhase} {bytes : Nat} {names : List Text}
    {below : List (AnyFrame × List Text)} {b : Byte} (h : Reads env s ((.scalar phase bytes, names) :: below) false)
    (hdone : stepScalar phase b = .done) : HandsOver env s b := by
  have hnot : ¬(phase = .beforeValue ∧ isWs b = true) := by
    rintro ⟨rfl, -⟩
    cases scalarIsComplete_of_done hdone
  have hpop : AnyJson.routeAnyByte env s b = .ok (.popped (AnyJson.popAnyFrame s (below.map Prod.fst))) := by
    unfold AnyJson.routeAnyByte
    rw [h.frames]
    simp only [List.map_cons]
    rw [AnyJson.routeAnyScalarByte, if_neg hnot, hdone]
  have hlen : s.frames.length = below.length + 1 := by
    rw [h.frames, List.map_cons, List.length_cons, List.length_map]
  have hroute : AnyJson.routeByte env s b = if (below.map Prod.fst).isEmpty
      then .ok (if isWs b then some (AnyJson.popAnyFrame s (below.map Prod.fst)) else none)
      else AnyJson.routeLoop env b below.length (AnyJson.popAnyFrame s (below.map Prod.fst)) := by
    rw [AnyJson.routeByte, if_neg (by simp [h.not_root]), hlen, AnyJson.routeLoop, hpop]
    show (if (s.rootClosed || (below.map Prod.fst).isEmpty) = true then _ else _) = _
    rw [h.not_root, Bool.false_or]
  refine ⟨_, hpop, ?_, fun hnil => ?_, fun hne => ?_⟩
  · rw [h.frames]
    rfl
  · have hempty : (below.map Prod.fst).isEmpty = true := List.isEmpty_iff.2 hnil
    rw [hroute, if_pos hempty]
  · cases below with
    | nil => exact absurd rfl hne
    | cons g below =>
      obtain ⟨f, names'⟩ := g
      have hf : Waiting f := h.ok.2 (f, names') List.mem_cons_self
      have hwaiting : ∀ t', AnyJson.routeAnyByte env (AnyJson.popAnyFrame s (((f, names') :: below).map Prod.fst)) b ≠
          .ok (.popped t') := fun t' => waiting_not_popped hf rfl
      refine ⟨hwaiting, ?_⟩
      rw [hroute, if_neg (by simp), List.length_cons, AnyJson.routeLoop]
      cases hstep : AnyJson.routeAnyByte env (AnyJson.popAnyFrame s (((f, names') :: below).map Prod.fst)) b with
      | error e => rfl
      | ok step =>
        cases step with
        | rejected | advanced _ => rfl
        | popped t' => exact absurd hstep (hwaiting t')

/-! ## The machine -/

/-- **Committed byte by byte, the machine for unconstrained values takes the JSON texts that repeat no name.**  It
refuses a byte only where no text goes on.  It takes one in vain in two places only: inside an escape that is refused
at its fourth digit, and after a repeated name, which is refused at its colon.  A number or a literal that ends leaves
the byte to the frame below alone. -/
theorem any_json_exact (env : AnyEnv) (w : List Byte) :
    (∀ r, run env initial w = .ok r → ((∃ s, r = some s ∧ s.accepting = true) ↔ w ∈ texts)) ∧
    (run env initial w = .ok none → ∀ more, w ++ more ∉ texts) ∧
    (∀ s, run env initial w = .ok (some s) →
      ((∃ more, w ++ more ∈ texts) ↔ ¬ InDoomedEscape s ∧ ¬ AtRepeatedName env s) ∧
      (InDoomedEscape s → ∀ more s', 3 ≤ more.length → run env s more ≠ .ok (some s')) ∧
      (AtRepeatedName env s → ∀ more s', run env s more = .ok (some s') → Whitespace more) ∧
      ∀ phase bytes below b, s.frames = .scalar phase bytes :: below → stepScalar phase b = .done →
      HandsOver env s b) := by
  have htaken : ∀ s, run env initial w = .ok (some s) → StandsFor env s (texts.leftQuotient w) := fun s hs =>
    (follows env).run_taken (initial_standsFor env) hs
  have hrefused : run env initial w = .ok none → texts.leftQuotient w = 0 :=
    (follows env).run_refused (initial_standsFor env)
  have hnone : run env initial w = .ok none → ∀ more, w ++ more ∉ texts := fun hr => eq_zero_iff.1 (hrefused hr)
  refine ⟨fun r hr => ?_, hnone, fun s hs => ?_⟩
  · cases r with
    | none =>
      refine iff_of_false (fun h => by obtain ⟨_, h, -⟩ := h; cases h) fun hw => hnone hr [] ?_
      rwa [List.append_nil]
    | some s =>
      obtain ⟨stack, -, -, haccepts⟩ := htaken s hr
      have hnil : [] ∈ texts.leftQuotient w ↔ w ∈ texts := by
        rw [mem_leftQuotient, List.append_nil]
      rw [← hnil, ← haccepts]
      constructor
      · rintro ⟨_, hs, h⟩
        cases hs
        exact h
      · intro h
        exact ⟨s, rfl, h⟩
  · obtain ⟨stack, h, hlang, -⟩ := htaken s hs
    refine ⟨?_, ?_, ?_, ?_⟩
    · rw [← h.completes_iff, hlang]
      rfl
    · rintro ⟨f, frames, d, hframes, hf, hdoomed⟩ more s' hlen
      cases stack with
      | nil => cases h.frames.symm.trans hframes
      | cons g below =>
        obtain ⟨g, names⟩ := g
        cases h.frames.symm.trans hframes
        have hbegun : ∃ cs, Begun d cs := by
          have hformed := h.ok.1
          cases g with
          | stringBody d' bytes =>
            cases hf
            exact hformed
          | object o =>
            simp only [decoderOf] at hf
            split_ifs at hf with hphase
            cases hf
            exact ⟨_, hformed.2 hphase⟩
          | _ => cases hf
        obtain ⟨cs, p, hp⟩ := hbegun
        obtain ⟨k, v, hescape, hk, hk4, -⟩ := (JsonStringDecoder.viable_iff_not_doomed hp).2 hdoomed
        exact doomed_run h.not_root h.frames hf hescape hk4 hdoomed (by omega)
    · rintro ⟨o, frames, hframes, hphase, hresolve⟩ more s' hrun
      cases stack with
      | nil => cases h.frames.symm.trans hframes
      | cons g below =>
        obtain ⟨g, names⟩ := g
        cases h.frames.symm.trans hframes
        exact repeated_run h hphase (h.keys.resolveKey hresolve) hrun
    · intro phase bytes frames b hframes hdone
      cases stack with
      | nil => cases h.frames.symm.trans hframes
      | cons g below =>
        obtain ⟨g, names⟩ := g
        cases h.frames.symm.trans hframes
        exact h.handsOver hdone

/-- The default limits, and a small hasher. -/
def defaultEnv : AnyEnv :=
  ⟨sumKeys, by decide, 16777216, 512, 1000000, 16777216, 1024, 1048576, fun _ => true⟩

/-- After a quote, a backslash, `ud` and `c` no text goes on, and the `c` is taken. -/
theorem low_half_taken_in_value : ¬ ∀ (env : AnyEnv) (w : List Byte) (s s' : AnyState) (b : Byte),
    run env initial w = .ok (some s) → advance env s b = .ok (some s') →
      (∃ more, w ++ b :: more ∈ texts) ∨ AtRepeatedName env s' := by
  intro h
  obtain ⟨s, hs, s', hs', hframes⟩ : ∃ s, run defaultEnv initial [0x22, 0x5c, 0x75, 0x64] = .ok (some s) ∧
      ∃ s', advance defaultEnv s 0x63 = .ok (some s') ∧ s'.frames =
      [.stringBody ⟨.unicode 2 0xdc, .start, none, 0⟩ 4] :=
    ⟨_, rfl, _, rfl, rfl⟩
  have hdoomed : InDoomedEscape s' := by
    refine ⟨_, _, _, hframes, rfl, ?_⟩
    simp [JsonStringDecoder.doomed]
  rcases h defaultEnv _ s s' 0x63 hs hs' with ⟨more, hmore⟩ | ⟨o, below, ho, -⟩
  · obtain ⟨stack, hstack, hlang, -⟩ := (follows defaultEnv).taken
      ((follows defaultEnv).run_taken (initial_standsFor defaultEnv) hs) hs'
    refine (hstack.completes_iff.1 ⟨more, ?_⟩).1 hdoomed
    rw [hlang]
    exact hmore
  · cases hframes.symm.trans ho

end AnyJson
end MaskForge
