import MaskForge.Structured.AnyLanguage
import MaskForge.Structured.KeyLife
/-!
# AnyExact — the machine for unconstrained values reads JSON

After every byte the frames stand for what is left of the JSON texts without a repeated name, and the session's keys are
those of the objects among the frames.  A byte is refused only where nothing is left.
-/
namespace MaskForge
namespace AnyJson

open Derivative Language

/-! ## The keys of the open objects -/

/-- The keys fed to each frame, innermost last, are the names it has. -/
inductive Fed : List (AnyFrame × List Text) → List (Option (List Member)) → Prop
  | nil : Fed [] []
  | object {o : AnyObjectState} {names : List Text} {stack : List (AnyFrame × List Text)}
      {r : List (Option (List Member))}
      {ms : List Member} (below : Fed stack r) (keys : ms.map Member.key = names.map textBytes) :
      Fed ((.object o, names) :: stack) (r ++ [some ms])
  | other {f : AnyFrame} {stack : List (AnyFrame × List Text)} {r : List (Option (List Member))} (below : Fed stack r)
      (hf : ∀ o, f ≠ .object o) : Fed ((f, []) :: stack) (r ++ [none])

/-- The session's keys are those of the frames; `closed` says that an object was closed since the last commit. -/
structure KeysHold (env : AnyEnv) (keys : KeyState) (stack : List (AnyFrame × List Text))
    (fed : List (Option (List Member))) (closed : Bool) : Prop where
  inv : KeyInv env.keys ⟨keys, fed, closed⟩
  safe : KeyTrace.Safe ⟨keys, fed, closed⟩
  fed : Fed stack fed
  unnamed : ∀ o, .object o ∈ keys.core.frames → o.knownByName = []

/-- The same with what was fed left out. -/
def KeysOf (env : AnyEnv) (keys : KeyState) (stack : List (AnyFrame × List Text)) (closed : Bool) : Prop :=
  ∃ fed, KeysHold env keys stack fed closed

section Keys
variable {env : AnyEnv} {keys : KeyState} {stack : List (AnyFrame × List Text)} {closed : Bool} {f : AnyFrame}
  {names : List Text}

theorem Fed.uncons {fed : List (Option (List Member))} (h : Fed ((f, names) :: stack) fed) :
    ∃ r y, fed = r ++ [y] ∧ Fed stack r ∧ (y.isSome → ∃ o, f = .object o) := by
  cases h with
  | object below keys => exact ⟨_, _, rfl, below, fun _ => ⟨_, rfl⟩⟩
  | other below hf => exact ⟨_, _, rfl, below, fun h => by cases h⟩

/-- Only an object that is closed counts. -/
theorem KeysOf.popFrame (h : KeysOf env keys ((f, names) :: stack) closed) :
    ∃ closed', KeysOf env keys.popFrame stack closed' ∧ ((∀ o, f ≠ .object o) → closed' = closed) := by
  obtain ⟨fed, h⟩ := h
  obtain ⟨r, y, rfl, hr, hy⟩ := h.fed.uncons
  have hinv := h.inv.popFrame.1
  rw [KeyTrace.act] at hinv
  simp only [List.dropLast_concat, List.getLast?_append, List.getLast?_singleton, Option.some_or,
    Option.any_some] at hinv
  refine ⟨_, ⟨r, hinv, fun ms hms => h.safe ms (List.mem_append_left _ hms), hr, fun o ho => h.unnamed o ?_⟩,
    fun hf => ?_⟩
  · unfold KeyState.popFrame at ho
    split at ho
    · exact ho
    · exact List.mem_of_mem_dropLast ho
  · have hnone : y.isSome = false := by
      rw [Bool.eq_false_iff]
      intro hsome
      obtain ⟨o, ho⟩ := hy hsome
      exact hf o ho
    rw [hnone, Bool.or_false]

theorem KeysOf.pushFrame (h : KeysOf env keys stack closed) (hf : ∀ o, f ≠ .object o) :
    KeysOf env (keys.pushFrame .other) ((f, []) :: stack) closed := by
  obtain ⟨fed, h⟩ := h
  have hinv := h.inv.pushFrame.1
  rw [KeyTrace.act] at hinv
  refine ⟨fed ++ [none], hinv, fun ms hms => h.safe ms ?_, h.fed.other hf, fun o ho => h.unnamed o ?_⟩
  · exact (List.mem_append.1 hms).resolve_right (by simp)
  · exact (List.mem_append.1 ho).resolve_right (by simp)

theorem KeysOf.openObject (h : KeysOf env keys stack closed) (o : AnyObjectState) :
    KeysOf env (keys.openObject []) ((.object o, []) :: stack) closed := by
  obtain ⟨fed, h⟩ := h
  have hinv := (h.inv.openObject env.fits []).1
  rw [KeyTrace.act] at hinv
  refine ⟨fed ++ [some []], hinv, fun ms hms => ?_, h.fed.object rfl, fun o ho => ?_⟩
  · rcases List.mem_append.1 hms with hms | hms
    · exact h.safe ms hms
    · cases List.mem_singleton.1 hms
      exact fun m hm => absurd hm List.not_mem_nil
  · rcases List.mem_append.1 ho with ho | ho
    · exact h.unnamed o ho
    · cases List.mem_singleton.1 ho
      rfl

/-- A frame that is an object stays one, and another stays another. -/
theorem KeysOf.setFrame (h : KeysOf env keys ((f, names) :: stack) closed) {f' : AnyFrame}
    (hf : (∃ o o', f = .object o ∧ f' = .object o') ∨ (∀ o, f ≠ .object o) ∧ ∀ o, f' ≠ .object o) :
    KeysOf env keys ((f', names) :: stack) closed := by
  obtain ⟨fed, h⟩ := h
  refine ⟨fed, h.inv, h.safe, ?_, h.unnamed⟩
  have hfed := h.fed
  cases hfed with
  | object below keys =>
    rcases hf with ⟨o, o', -, rfl⟩ | ⟨hf, -⟩
    · exact .object below keys
    · exact absurd rfl (hf _)
  | other below hnot =>
    rcases hf with ⟨o, o', rfl, -⟩ | ⟨-, hf⟩
    · exact absurd rfl (hnot o)
    · exact .other below hf

theorem KeysOf.names_eq_nil (h : KeysOf env keys ((f, names) :: stack) closed) (hf : ∀ o, f ≠ .object o) :
    names = [] := by
  obtain ⟨fed, h⟩ := h
  have hfed := h.fed
  cases hfed with
  | object below keys => exact absurd rfl (hf _)
  | other below hnot => rfl

theorem KeysOf.commit (h : KeysOf env keys stack closed) : KeysOf env keys.commit stack false := by
  obtain ⟨fed, h⟩ := h
  refine ⟨fed, h.inv.commit h.safe, h.safe, h.fed, fun o ho => h.unnamed o ?_⟩
  unfold KeyState.commit at ho
  split at ho <;> exact ho

/-- A duplicate is the key of an id in its bucket. -/
theorem classifyKeyIntern_none {limits : KeyLimits} {arena : KeyArena} {o : ObjectKeys} {key : Key} {hash : Nat}
    (h : classifyKeyIntern limits arena o.seenDynamic key hash = .ok none) :
    ∃ id ∈ o.idsOf hash, arena.get id = some key := by
  unfold classifyKeyIntern at h
  split_ifs at h with hdup
  · cases hslot : o.seenDynamic hash with
    | none =>
      rw [hslot] at hdup
      cases hdup
    | some slot =>
      rw [hslot, Option.any_some, List.any_eq_true] at hdup
      obtain ⟨id, hid, hget⟩ := hdup
      refine ⟨id, ?_, eq_of_beq hget⟩
      rw [ObjectKeys.idsOf, hslot]
      exact hid
  · cases h

theorem internDynamicKey_none {env : KeyEnv} {s : KeyState} {depth : Nat} {o : ObjectKeys} {key : Key} {granted : Bool}
    (h : s.internDynamicKey env depth o key granted = .ok none) :
    ∃ id ∈ o.idsOf (env.hash key), s.core.arena.get id = some key := by
  unfold KeyState.internDynamicKey at h
  cases hc : classifyKeyIntern env.limits s.core.arena o.seenDynamic key (env.hash key) with
  | error e =>
    rw [hc] at h
    cases h
  | ok found =>
    cases found with
    | none => exact classifyKeyIntern_none hc
    | some found =>
      rw [hc] at h
      change (if _ then _ else _) = _ at h
      split_ifs at h
      cases h

/-- **A name is refused exactly if the object has it; another one is the object's from then on.** -/
theorem KeysOf.resolveKey {o : AnyObjectState} (h : KeysOf env keys ((.object o, names) :: stack) false) {key : Text}
    {found : Option (KeyState × Option Nat)} (hr : keys.resolveKey env.keys (textBytes key) true = .ok found) :
    match found with
    | none => ¬ (names ++ [key]).Nodup
    | some (keys', _) => (names ++ [key]).Nodup ∧ ∀ o', KeysOf env keys'
        ((.object o', names ++ [key]) :: stack) false := by
  obtain ⟨fed, h⟩ := h
  have hfed := h.fed
  obtain ⟨hinv, hsafe, -, hunnamed⟩ := h
  have hkeyNodup : ∀ {ms : List Member} {ns : List Text}, ms.map Member.key = ns.map textBytes →
    (ms.map Member.key).Nodup →
      ns.Nodup := fun hkeys hnodup => by
    rw [hkeys] at hnodup
    exact List.Nodup.of_map _ hnodup
  cases hfed with
  | @object _ _ _ r ms below hkeys =>
    obtain ⟨fs, kf, hfs, -, hok⟩ := forall₂_append_singleton hinv.frames.flip
    cases hok with
    | @object ok _ hok =>
    have hlast : keys.core.frames.getLast? = some (.object ok) := by
      rw [hfs, List.getLast?_append]
      rfl
    have hknown : ok.knownByName = [] := hunnamed ok (by
      rw [hfs]
      exact List.mem_append_right _ (List.mem_singleton_self _))
    have hresolve : keys.resolveKey env.keys (textBytes key) true =
        (keys.internDynamicKey env.keys (keys.core.frames.length - 1) ok (textBytes key) true).map
          (Option.map fun r => (r.1, some r.2)) := by
      unfold KeyState.resolveKey
      rw [hlast]
      dsimp only
      rw [hknown]
      rfl
    rw [hresolve] at hr
    cases hi : keys.internDynamicKey env.keys (keys.core.frames.length - 1) ok (textBytes key) true with
    | error e =>
      rw [hi] at hr
      cases hr
    | ok result =>
      rw [hi] at hr
      cases result with
      | none =>
        cases hr
        obtain ⟨id, hid, hget⟩ := internDynamicKey_none hi
        obtain ⟨m, hm, hmid, -⟩ := hok.mem_idsOf hid
        have hstored := (hok.stored m hm id hmid).get (Nat.lt_of_le_of_lt hinv.bytes env.fits)
        have hmem : textBytes key ∈ names.map textBytes := by
          rw [← hkeys, Option.some.inj (hget.symm.trans hstored)]
          exact List.mem_map_of_mem hm
        obtain ⟨name, hname, heq⟩ := List.mem_map.1 hmem
        rw [textBytes_inj heq] at hname
        exact fun hnodup => (List.nodup_append'.1 hnodup).2.2 hname (List.mem_singleton_self _)
      | some result =>
        obtain ⟨keys', id⟩ := result
        cases hr
        have hlookup : ok.knownByName.lookup (textBytes key) = none := by rw [hknown, List.lookup_nil]
        have hnew := (hinv.intern env.fits hlast hlookup hi).1
        rw [feed_last rfl] at hnew
        obtain ⟨hfresh, -, -, -, hinsert⟩ := internDynamicKey_some hi
        have hdepth : keys.core.frames.length - 1 = fs.length := by
          rw [hfs, List.length_append, List.length_singleton, Nat.add_sub_cancel]
        obtain ⟨slot, es, -, -, hstate, -⟩ := insertKey_last keys hfs (env.keys.hash (textBytes key)) (textBytes key)
          keys.core.arena.spans.length keys.core.arena.bytes.length (textBytes key).length
        rw [hdepth, hstate] at hinsert
        have hmap : (ms ++ [(⟨textBytes key, some id, false⟩ : Member)]).map Member.key =
          (names ++ [key]).map textBytes := by
          rw [List.map_append, List.map_append, hkeys]
          rfl
        refine ⟨?_, fun o' => ⟨_, hnew, ?_, .object below hmap, ?_⟩⟩
        · obtain ⟨fs', kf', -, -, hok'⟩ := forall₂_append_singleton hnew.frames.flip
          cases hok' with
          | object hok' => exact hkeyNodup hmap hok'.nodup
        · intro ms' hms'
          rcases List.mem_append.1 hms' with hms' | hms'
          · exact hsafe ms' (List.mem_append_left _ hms')
          · cases List.mem_singleton.1 hms'
            intro m hm hsome
            rcases List.mem_append.1 hm with hm | hm
            · exact hsafe ms (List.mem_append_right _ (List.mem_singleton_self _)) m hm hsome
            · rw [List.mem_singleton.1 hm]
        · intro o'' ho''
          rw [hinsert] at ho''
          rcases List.mem_append.1 ho'' with ho'' | ho''
          · exact hunnamed o'' (by
              rw [hfs]
              exact List.mem_append_left _ ho'')
          · cases List.mem_singleton.1 ho''
            exact hknown
  | other below hnot => exact absurd rfl (hnot o)

end Keys

/-! ## The frames -/

/-- A decoder that has read some text. -/
def Begun (d : JsonStringDecoder) (cs : Text) : Prop := ∃ p, JsonStringDecoder.new.feed p = some (cs, d)

theorem Begun.new : Begun .new [] := ⟨[], rfl⟩

theorem Begun.at {d : JsonStringDecoder} {cs : Text} (h : Begun d cs) : ∃ u, d.At u := by
  obtain ⟨p, hp⟩ := h
  obtain ⟨_, rest, _, _, hat, _⟩ := JsonStringDecoder.feed_split (.boundary 0) hp
  exact ⟨rest, hat⟩

theorem Begun.cont {d d' : JsonStringDecoder} {cs : Text} {b : Byte} (h : Begun d cs) (hpush : d.push b = (.cont, d')) :
    Begun d' cs := by
  obtain ⟨p, hp⟩ := h
  refine ⟨p ++ [b], ?_⟩
  rw [JsonStringDecoder.feed_append, hp, Option.bind_some, JsonStringDecoder.feed_cont hpush]
  simp [JsonStringDecoder.feed]

theorem Begun.scalar {d d' : JsonStringDecoder} {cs : Text} {b : Byte} {c : Char} (h : Begun d cs)
    (hpush : d.push b = (.scalar c, d')) : Begun d' (cs ++ [c]) := by
  obtain ⟨p, hp⟩ := h
  refine ⟨p ++ [b], ?_⟩
  rw [JsonStringDecoder.feed_append, hp, Option.bind_some, JsonStringDecoder.feed_scalar hpush]
  rfl

/-- A literal is not read to its end before it is done. -/
def ScalarFormed : ScalarPhase → Prop
  | .trueAt matched => matched < literalTrue.length
  | .falseAt matched => matched < literalFalse.length
  | .nullAt matched => matched < literalNull.length
  | _ => True

def Formed : AnyFrame → Prop
  | .scalar phase _ => ScalarFormed phase
  | .stringBody d _ => ∃ cs, Begun d cs
  | .array _ _ => True
  | .object o => o.phase ≠ .start ∧ (o.phase = .inKey → Begun o.keyDecoder o.key)

/-- The frame has handed a value to the frame above it. -/
def Waiting : AnyFrame → Prop
  | .array .afterValue _ => True
  | .object o => o.phase = .afterValueBeforeCommaOrClose
  | _ => False

theorem Waiting.formed {f : AnyFrame} (h : Waiting f) : Formed f := by
  cases f with
  | object o =>
    have hphase : o.phase = .afterValueBeforeCommaOrClose := h
    show o.phase ≠ .start ∧ (o.phase = .inKey → _)
    rw [hphase]
    exact ⟨nofun, nofun⟩
  | array phase items => trivial
  | _ => exact h.elim

/-- Only the innermost frame is at work. -/
def StackOk : List (AnyFrame × List Text) → Prop
  | [] => True
  | (f, _) :: below => Formed f ∧ ∀ g ∈ below, Waiting g.1

theorem StackOk.of_waiting {stack : List (AnyFrame × List Text)} (h : ∀ g ∈ stack, Waiting g.1) : StackOk stack := by
  cases stack with
  | nil => trivial
  | cons f below =>
    rw [List.forall_mem_cons] at h
    exact ⟨h.1.formed, h.2⟩

/-- The state between two bytes, or within one. -/
structure Reads (env : AnyEnv) (s : AnyState) (stack : List (AnyFrame × List Text)) (closed : Bool) : Prop where
  frames : s.frames = stack.map Prod.fst
  ok : StackOk stack
  keys : KeysOf env s.keys stack closed
  root : s.rootClosed = stack.isEmpty

/-- What a byte does to the language that is left: the frame below reads it if the value has ended. -/
def Routed (env : AnyEnv) (b : Byte) (L : Language Byte) (below : List (AnyFrame × List Text)) : AnyStep → Prop
  | .rejected => L.leftQuotient [b] = 0
  | .advanced s => ∃ stack closed, Reads env s stack closed ∧ stackLang stack = L.leftQuotient [b]
  | .popped s => Reads env s below false ∧ (stackLang below).leftQuotient [b] = L.leftQuotient [b]

section Steps
variable {env : AnyEnv} {s : AnyState} {below : List (AnyFrame × List Text)} {names : List Text} {b : Byte}
  {closed : Bool}

/-- The innermost frame is replaced, the keys stay. -/
theorem Reads.setFrame {f f' : AnyFrame} (h : Reads env s ((f, names) :: below) closed) (hf : Formed f')
    (hsame : (∃ o o', f = .object o ∧ f' = .object o') ∨ (∀ o, f ≠ .object o) ∧ ∀ o, f' ≠ .object o) :
    Reads env { s with frames := f' :: below.map Prod.fst } ((f', names) :: below) closed :=
  ⟨rfl, ⟨hf, h.ok.2⟩, h.keys.setFrame hsame, h.root⟩

theorem Reads.popAnyFrame {f : AnyFrame} (h : Reads env s ((f, names) :: below) closed) :
    ∃ closed', Reads env (popAnyFrame s (below.map Prod.fst)) below closed' ∧
    ((∀ o, f ≠ .object o) → closed' = closed) := by
  obtain ⟨closed', hkeys, hclosed⟩ := h.keys.popFrame
  refine ⟨closed', ⟨rfl, .of_waiting h.ok.2, hkeys, ?_⟩, hclosed⟩
  show (s.rootClosed || (below.map Prod.fst).isEmpty) = _
  rw [h.root, List.isEmpty_map]
  rfl

theorem Reads.pushAnyChild {s' : AnyState} {f : AnyFrame} (h : Reads env s ((f, names) :: below) closed)
    (hf : Waiting f)
    (hs : pushAnyChild env s = .ok s') : Reads env s' ((.scalar .beforeValue 0, []) :: (f, names) :: below) closed := by
  unfold AnyJson.pushAnyChild at hs
  split at hs
  · cases hs
  · cases hs
    refine ⟨?_, ⟨trivial, ?_⟩, h.keys.pushFrame nofun, ?_⟩
    · show .scalar .beforeValue 0 :: s.frames = _
      rw [h.frames]
      rfl
    · rw [List.forall_mem_cons]
      exact ⟨hf, h.ok.2⟩
    · exact h.root

/-! ### Scalars -/

/-- A frame that waits for its next byte takes white space, a comma or a bracket. -/
theorem quotient_stackLang_waiting (hw : ∀ g ∈ below, Waiting g.1) (hws : ¬ IsWhitespace b) (hcomma : b ≠ 0x2c)
    (harray : b ≠ 0x5d) (hobject : b ≠ 0x7d) : (stackLang below).leftQuotient [b] = 0 := by
  cases below with
  | nil => exact quotient_letters_not hws
  | cons g below =>
    obtain ⟨f, names⟩ := g
    have hf : Waiting f := hw (f, names) List.mem_cons_self
    unfold stackLang
    cases f with
    | array phase items =>
      cases phase with
      | afterValue =>
        rw [frameLang, quotient_mul (nil_notMem_arrayLang _), arrayLang, quotient_array_tail hws, if_neg hcomma,
          if_neg harray, zero_mul]
      | _ => exact hf.elim
    | object o =>
      have hphase : o.phase = .afterValueBeforeCommaOrClose := hf
      rw [frameLang, quotient_mul (nil_notMem_objectLang _ _), objectLang, hphase]
      dsimp only
      rw [quotient_object_tail _ hws, if_neg hcomma, if_neg hobject, zero_mul]
    | _ => exact hf.elim

/-- What may follow a value ends a scalar that is complete. -/
theorem stepScalar_ends {phase : ScalarPhase} (hc : scalarIsComplete phase = true)
    (hb : IsWhitespace b ∨ b = 0x2c ∨ b = 0x5d ∨ b = 0x7d) : stepScalar phase b = .done := by
  rcases hb with hb | rfl | rfl | rfl
  · exact stepScalar_ws hc (isWs_iff.2 hb)
  all_goals
    cases phase with
    | literalDone => rfl
    | number p =>
      cases p with
      | intRest leadingZero => cases leadingZero <;> rfl
      | fracRest | expRest => rfl
      | intFirst | fracFirst | expSign | expFirst => cases hc
    | _ => cases hc

theorem scalarIsComplete_of_done {phase : ScalarPhase} (h : stepScalar phase b = .done) :
    scalarIsComplete phase = true := by
  have hliteral : ∀ (w : List Byte) (f : Nat → ScalarPhase) (n : Nat), stepLiteral w f n b ≠ .done := fun w f n => by
    unfold stepLiteral
    split_ifs <;> nofun
  cases phase with
  | literalDone => rfl
  | number p =>
    cases p with
    | intRest _ | fracRest | expRest => rfl
    | intFirst | fracFirst | expSign | expFirst =>
      simp only [stepScalar, stepNumber] at h
      split_ifs at h
  | beforeValue =>
    simp only [stepScalar] at h
    split_ifs at h
  | trueAt n => exact absurd h (hliteral _ _ n)
  | falseAt n => exact absurd h (hliteral _ _ n)
  | nullAt n => exact absurd h (hliteral _ _ n)

/-- A scalar may end here exactly if its phase says so. -/
theorem nil_mem_scalarLang {phase : ScalarPhase} (h : ScalarFormed phase) :
    [] ∈ scalarLang phase ↔ scalarIsComplete phase = true := by
  have hliteral : ∀ {w : List Byte} {n : Nat}, n < w.length → [] ∉ word (w.drop n) := fun hn => by
    rw [List.drop_eq_getElem_cons hn]
    exact nil_notMem_word
  cases phase with
  | beforeValue => exact iff_of_false (fun h => nil_notMem_values (nil_mem_mul.1 h).2) nofun
  | number p => exact nil_mem_numberLang p
  | literalDone => exact iff_of_true rfl rfl
  | trueAt n => exact iff_of_false (hliteral h) nofun
  | falseAt n => exact iff_of_false (hliteral h) nofun
  | nullAt n => exact iff_of_false (hliteral h) nofun

theorem ScalarFormed.step {phase next : ScalarPhase} (h : ScalarFormed phase) (hs : stepScalar phase b = .cont next) :
    ScalarFormed next := by
  have hliteral : ∀ {w : List Byte} {f : Nat → ScalarPhase} {n : Nat}, (∀ m, m < w.length → ScalarFormed (f m)) →
    n < w.length →
      stepLiteral w f n b = .cont next → ScalarFormed next := fun hf hn hs => by
    unfold stepLiteral at hs
    split_ifs at hs with _ hlast
    · cases hs
      trivial
    · cases hs
      exact hf _ (by omega)
  cases phase with
  | beforeValue =>
    simp only [stepScalar] at hs
    split_ifs at hs <;> cases hs
    all_goals first | trivial | exact (by decide : 1 < 4) | exact (by decide : 1 < 5)
  | number p =>
    cases p <;> simp only [stepScalar, stepNumber] at hs <;> split_ifs at hs <;> cases hs <;> trivial
  | literalDone => cases hs
  | trueAt n => exact hliteral (f := .trueAt) (fun _ hm => hm) h hs
  | falseAt n => exact hliteral (f := .falseAt) (fun _ hm => hm) h hs
  | nullAt n => exact hliteral (f := .nullAt) (fun _ hm => hm) h hs

/-- **A scalar that does not end at a byte reads it.** -/
theorem quotient_scalar_mul {phase : ScalarPhase} (hformed : ScalarFormed phase) (hw : ∀ g ∈ below, Waiting g.1)
    (hws : ¬(phase = .beforeValue ∧ isWs b = true)) (hdone : stepScalar phase b ≠ .done) :
    (scalarLang phase * stackLang below).leftQuotient [b] = stepLang (stepScalar phase b) * stackLang below := by
  rw [← quotient_scalarLang hws]
  by_cases hnil : [] ∈ scalarLang phase
  · have hends : ¬(IsWhitespace b ∨ b = 0x2c ∨ b = 0x5d ∨ b = 0x7d) := fun hb =>
      hdone (stepScalar_ends ((nil_mem_scalarLang hformed).1 hnil) hb)
    rw [not_or, not_or, not_or] at hends
    exact quotient_mul_keep (quotient_stackLang_waiting hw hends.1 hends.2.1 hends.2.2.1 hends.2.2.2)
  · exact quotient_mul hnil

/-- **One that ends leaves it to the frame below.** -/
theorem quotient_scalar_done {phase : ScalarPhase} (hformed : ScalarFormed phase) (hdone : stepScalar phase b = .done)
    (L : Language Byte) : (scalarLang phase * L).leftQuotient [b] = L.leftQuotient [b] := by
  have hc := scalarIsComplete_of_done hdone
  have hws : ¬(phase = .beforeValue ∧ isWs b = true) := by
    rintro ⟨rfl, -⟩
    cases hc
  refine quotient_mul_skip ((nil_mem_scalarLang hformed).2 hc) ?_
  rw [quotient_scalarLang hws, hdone]
  rfl

theorem Reads.not_root {f : AnyFrame} (h : Reads env s ((f, names) :: below) closed) : s.rootClosed = false := h.root

/-- **What a scalar's frame does with a byte.** -/
theorem Reads.routeAnyScalarByte {phase : ScalarPhase} {bytes : Nat} {step : AnyStep}
    (h : Reads env s ((.scalar phase bytes, names) :: below) false)
    (hr : routeAnyScalarByte env s phase bytes (below.map Prod.fst) b = .ok step) :
    Routed env b (stackLang ((.scalar phase bytes, names) :: below)) below step := by
  have hformed : ScalarFormed phase := h.ok.1
  have hwaiting := h.ok.2
  have hscalar : ∀ o, AnyFrame.scalar phase bytes ≠ .object o := nofun
  have hnames := h.keys.names_eq_nil hscalar
  subst hnames
  unfold AnyJson.routeAnyScalarByte at hr
  split at hr
  · rename_i hws
    cases hr
    obtain ⟨rfl, hb⟩ := hws
    refine ⟨_, _, h, ?_⟩
    have hskip := quotient_skip (isWs_iff.1 hb) (quotient_values_ws (isWs_iff.1 hb))
    show _ = (spaces * values * stackLang below).leftQuotient [b]
    rw [quotient_mul (fun hnil => nil_notMem_values (nil_mem_mul.1 hnil).2)]
    exact congrArg (· * stackLang below) hskip.symm
  rename_i hws
  have hread : stepScalar phase b ≠ .done →
      (stackLang ((.scalar phase bytes, []) :: below)).leftQuotient [b] = stepLang (stepScalar phase b) *
      stackLang below :=
    fun hdone => quotient_scalar_mul hformed hwaiting hws hdone
  cases hstep : stepScalar phase b with
  | cont next =>
    rw [hstep] at hr
    obtain ⟨nextBytes, -, hr⟩ := bind_ok hr
    split_ifs at hr
    · cases hr
      refine ⟨_, _, h.setFrame (hformed.step hstep) (.inr ⟨nofun, nofun⟩), ?_⟩
      rw [hread (by rw [hstep]; nofun), hstep]
      rfl
  | startString =>
    rw [hstep] at hr
    cases hr
    refine ⟨_, _, h.setFrame ⟨[], Begun.new⟩ (.inr ⟨nofun, nofun⟩), ?_⟩
    rw [hread (by rw [hstep]; nofun), hstep]
    rfl
  | startArray =>
    rw [hstep] at hr
    cases hr
    refine ⟨_, _, h.setFrame trivial (.inr ⟨nofun, nofun⟩), ?_⟩
    rw [hread (by rw [hstep]; nofun), hstep]
    rfl
  | startObject =>
    rw [hstep] at hr
    cases hr
    obtain ⟨closed', hkeys, hclosed⟩ := h.keys.popFrame
    rw [hclosed hscalar] at hkeys
    refine ⟨(.object ⟨.beforeFirstKeyOrClose, [], .new, 0⟩, []) :: below, false,
      ⟨rfl, ⟨⟨nofun, nofun⟩, hwaiting⟩, hkeys.openObject _, h.root⟩, ?_⟩
    rw [hread (by rw [hstep]; nofun), hstep]
    rfl
  | done =>
    rw [hstep] at hr
    cases hr
    obtain ⟨closed', hpop, hclosed⟩ := h.popAnyFrame
    rw [hclosed hscalar] at hpop
    exact ⟨hpop, (quotient_scalar_done hformed hstep (stackLang below)).symm⟩
  | invalid =>
    rw [hstep] at hr
    cases hr
    show (stackLang _).leftQuotient [b] = 0
    rw [hread (by rw [hstep]; nofun), hstep]
    exact zero_mul _

/-- No value ends before it starts. -/
theorem routeAnyScalarByte_before {bytes : Nat} {frames : List AnyFrame} {s' : AnyState} :
    AnyJson.routeAnyScalarByte env s .beforeValue bytes frames b ≠ .ok (.popped s') := by
  intro h
  unfold AnyJson.routeAnyScalarByte at h
  split at h
  · cases h
  cases hstep : stepScalar .beforeValue b with
  | done => cases scalarIsComplete_of_done hstep
  | cont next =>
    rw [hstep] at h
    obtain ⟨_, -, h⟩ := bind_ok h
    split_ifs at h
    cases h
  | _ =>
    rw [hstep] at h
    cases h

/-- **A value that starts inside a container.**  The container's frame waits below a new scalar, which
reads the byte. -/
theorem Reads.routeChild {f : AnyFrame} {s' : AnyState} {step : AnyStep} {L : Language Byte}
    (h : Reads env s ((f, names) :: below) false)
    (hf : Waiting f) (hs : AnyJson.pushAnyChild env s = .ok s') (hws : ¬ IsWhitespace b)
    (hL : L.leftQuotient [b] = values.leftQuotient [b] * stackLang ((f, names) :: below))
    (hr : (AnyJson.routeAnyScalarByte env s' .beforeValue 0 (((f, names) :: below).map Prod.fst) b).map started =
      .ok step) :
    ∀ rest, Routed env b L rest step := by
  intro rest
  have hchild := h.pushAnyChild hf hs
  cases hroute : AnyJson.routeAnyScalarByte env s' .beforeValue 0 (((f, names) :: below).map Prod.fst) b with
  | error e =>
    rw [hroute] at hr
    cases hr
  | ok step' =>
    have hspec := hchild.routeAnyScalarByte hroute
    have hlang : (stackLang ((.scalar .beforeValue 0, []) :: (f, names) :: below)).leftQuotient
      [b] = L.leftQuotient [b] := by
      rw [hL]
      show (spaces * values * _).leftQuotient [b] = _
      rw [mul_assoc, spaces, quotient_next hws, quotient_mul nil_notMem_values]
    rw [hroute] at hr
    cases hr
    cases step' with
    | rejected => exact hlang.symm.trans hspec
    | advanced s'' =>
      obtain ⟨stack, closed', hreads, hstack⟩ := hspec
      exact ⟨stack, closed', hreads, hstack.trans hlang⟩
    | popped s'' => exact absurd hroute routeAnyScalarByte_before

/-! ### Strings, arrays and objects -/

/-- A container or a string reads the byte itself. -/
theorem quotient_frame {f : AnyFrame} (h : [] ∉ frameLang names f) :
    (stackLang ((f, names) :: below)).leftQuotient [b] = (frameLang names f).leftQuotient [b] * stackLang below :=
  quotient_mul h

/-- The frame's last byte takes it off. -/
theorem Reads.close {f : AnyFrame} (h : Reads env s ((f, names) :: below) closed) (hnil : [] ∉ frameLang names f)
    (hb : (frameLang names f).leftQuotient [b] = 1) :
    Routed env b (stackLang ((f, names) :: below)) below (.advanced (AnyJson.popAnyFrame s (below.map Prod.fst))) := by
  obtain ⟨closed', hpop, -⟩ := h.popAnyFrame
  refine ⟨below, closed', hpop, ?_⟩
  rw [quotient_frame hnil, hb, one_mul]

/-- The frame goes on. -/
theorem Reads.goOn {f f' : AnyFrame} (h : Reads env s ((f, names) :: below) closed) (hnil : [] ∉ frameLang names f)
    (hf : Formed f') (hsame : (∃ o o', f = .object o ∧ f' = .object o') ∨ (∀ o, f ≠ .object o) ∧ ∀ o, f' ≠ .object o)
    (hb : (frameLang names f).leftQuotient [b] = frameLang names f') :
    Routed env b (stackLang ((f, names) :: below)) below (.advanced { s with frames := f' :: below.map Prod.fst }) := by
  refine ⟨(f', names) :: below, closed, h.setFrame hf hsame, ?_⟩
  rw [quotient_frame hnil, hb]
  rfl

/-- The frame stays as it is. -/
theorem Reads.stay {f : AnyFrame} (h : Reads env s ((f, names) :: below) closed) (hnil : [] ∉ frameLang names f)
    (hb : (frameLang names f).leftQuotient [b] = frameLang names f) :
    Routed env b (stackLang ((f, names) :: below)) below (.advanced s) := by
  refine ⟨_, closed, h, ?_⟩
  rw [quotient_frame hnil, hb]
  rfl

/-- The frame refuses. -/
theorem Reads.refuse {f : AnyFrame} (hnil : [] ∉ frameLang names f) (hb : (frameLang names f).leftQuotient [b] = 0) :
    Routed env b (stackLang ((f, names) :: below)) below .rejected := by
  show (stackLang _).leftQuotient [b] = 0
  rw [quotient_frame hnil, hb, zero_mul]

theorem Reads.routeAnyStringByte {d : JsonStringDecoder} {bytes : Nat} {step : AnyStep}
    (h : Reads env s ((.stringBody d bytes, names) :: below) false)
    (hr : AnyJson.routeAnyStringByte env s d bytes (below.map Prod.fst) b = .ok step) :
    Routed env b (stackLang ((.stringBody d bytes, names) :: below)) below step := by
  obtain ⟨cs, hbegun⟩ := h.ok.1
  have hnil : [] ∉ frameLang names (.stringBody d bytes) := nil_notMem_bodyThen
  unfold AnyJson.routeAnyStringByte at hr
  split at hr
  · rename_i hclose
    cases hr
    obtain ⟨rfl, hd⟩ := hclose
    obtain ⟨u, hat⟩ := hbegun.at
    exact h.close hnil (quotient_bodyThen_close hat hd)
  rename_i hclose
  have hbody := quotient_bodyThen hclose fun _ => (1 : Language Byte)
  cases hpush : d.push b with
  | mk decoded d' =>
    rw [hpush] at hr hbody
    cases decoded with
    | invalid =>
      cases hr
      exact Reads.refuse hnil hbody
    | cont =>
      obtain ⟨nextBytes, -, hr⟩ := bind_ok hr
      split_ifs at hr
      cases hr
      exact h.goOn hnil ⟨cs, hbegun.cont hpush⟩ (.inr ⟨nofun, nofun⟩) hbody
    | scalar c =>
      obtain ⟨nextBytes, -, hr⟩ := bind_ok hr
      split_ifs at hr
      cases hr
      exact h.goOn hnil ⟨_, hbegun.scalar hpush⟩ (.inr ⟨nofun, nofun⟩) hbody

theorem Reads.startAnyItem {phase : AnyArrayPhase} {items : Nat} {step : AnyStep}
    (h : Reads env s ((.array phase items, names) :: below) false) (hws : ¬ IsWhitespace b)
    (hL : (arrayLang phase).leftQuotient [b] = values.leftQuotient [b] * arrayTail)
    (hr : AnyJson.startAnyItem env s items (below.map Prod.fst) b = .ok step) :
    Routed env b (stackLang ((.array phase items, names) :: below)) below step := by
  unfold AnyJson.startAnyItem at hr
  split_ifs at hr
  obtain ⟨nextItems, -, hr⟩ := bind_ok hr
  obtain ⟨s', hs, hr⟩ := bind_ok hr
  have hheld := h.setFrame (show Formed (.array .afterValue nextItems) from trivial) (.inr ⟨nofun, nofun⟩)
  refine hheld.routeChild trivial hs hws ?_ hr below
  have hnil : [] ∉ frameLang names (.array phase items) := nil_notMem_arrayLang phase
  rw [quotient_frame hnil, frameLang, hL, mul_assoc]
  rfl

theorem Reads.routeAnyArrayByte {phase : AnyArrayPhase} {items : Nat} {step : AnyStep}
    (h : Reads env s ((.array phase items, names) :: below) false)
    (hr : AnyJson.routeAnyArrayByte env s phase items (below.map Prod.fst) b = .ok step) :
    Routed env b (stackLang ((.array phase items, names) :: below)) below step := by
  have hnil : [] ∉ frameLang names (.array phase items) := nil_notMem_arrayLang phase
  by_cases hb : isWs b
  · -- white space, in whatever phase
    have hstep : step = .advanced s := by
      unfold AnyJson.routeAnyArrayByte at hr
      cases phase <;> simp only [hb, if_true, Except.ok.injEq] at hr <;> exact hr.symm
    rw [hstep]
    exact h.stay hnil (quotient_array_ws (isWs_iff.1 hb) phase)
  have hws : ¬ IsWhitespace b := fun h => hb (isWs_iff.2 h)
  unfold AnyJson.routeAnyArrayByte at hr
  cases phase with
  | beforeFirstOrClose =>
    dsimp only at hr
    rw [if_neg hb] at hr
    have hquotient := quotient_array_first hws
    split_ifs at hr with hclose
    · cases hr
      rw [if_pos hclose] at hquotient
      exact h.close hnil hquotient
    · rw [if_neg hclose] at hquotient
      exact h.startAnyItem hws hquotient hr
  | afterValue =>
    dsimp only at hr
    rw [if_neg hb] at hr
    have hquotient := quotient_array_tail hws
    split_ifs at hr hquotient with hcomma hclose
    · cases hr
      exact h.goOn hnil trivial (.inr ⟨nofun, nofun⟩) hquotient
    · cases hr
      exact h.close hnil hquotient
    · cases hr
      exact Reads.refuse hnil hquotient
  | afterComma =>
    dsimp only at hr
    rw [if_neg hb] at hr
    exact h.startAnyItem hws (quotient_array_comma hws) hr

theorem Reads.pushAnyKeyByte {o : AnyObjectState} {step : AnyStep} (h : Reads env s ((.object o, names) :: below) false)
    (hphase : o.phase = .inKey) (hr : AnyJson.pushAnyKeyByte env s o (below.map Prod.fst) b = .ok step) :
    Routed env b (stackLang ((.object o, names) :: below)) below step := by
  have hbegun := h.ok.1.2 hphase
  have hnil : [] ∉ frameLang names (.object o) := nil_notMem_objectLang names o
  have hlang : frameLang names (.object o) = bodyThen o.keyDecoder fun cs => memberRest names (o.key ++ cs) := by
    rw [frameLang, objectLang, hphase]
  unfold AnyJson.pushAnyKeyByte at hr
  split at hr
  · rename_i hclose
    cases hr
    obtain ⟨rfl, hd⟩ := hclose
    obtain ⟨u, hat⟩ := hbegun.at
    refine h.goOn hnil ⟨nofun, nofun⟩ (.inl ⟨_, _, rfl, rfl⟩) ?_
    rw [hlang, quotient_bodyThen_close hat hd, List.append_nil]
    rfl
  rename_i hclose
  have hbody := quotient_bodyThen hclose fun cs => memberRest names (o.key ++ cs)
  rw [← hlang] at hbody
  cases hpush : o.keyDecoder.push b with
  | mk decoded d' =>
    rw [hpush] at hr hbody
    cases decoded with
    | invalid =>
      cases hr
      exact Reads.refuse hnil hbody
    | cont =>
      cases hr
      refine h.goOn hnil ⟨by rw [hphase]; nofun, fun _ => hbegun.cont hpush⟩ (.inl ⟨_, _, rfl, rfl⟩) ?_
      rw [hbody, frameLang, objectLang, hphase]
    | scalar c =>
      dsimp only at hr
      split_ifs at hr
      cases hr
      refine h.goOn hnil ⟨by rw [hphase]; nofun, fun _ => hbegun.scalar hpush⟩ (.inl ⟨_, _, rfl, rfl⟩) ?_
      rw [hbody, frameLang, objectLang, hphase]
      simp only [List.append_assoc, List.singleton_append]

theorem Reads.resolveAnyColon {o : AnyObjectState} {step : AnyStep}
    (h : Reads env s ((.object o, names) :: below) false)
    (hphase : o.phase = .afterKeyBeforeColon) (hr : AnyJson.resolveAnyColon env s o (below.map Prod.fst) = .ok step) :
    Routed env 0x3a (stackLang ((.object o, names) :: below)) below step := by
  have hnil : [] ∉ frameLang names (.object o) := nil_notMem_objectLang names o
  have hlang : frameLang names (.object o) = memberRest names o.key := by rw [frameLang, objectLang, hphase]
  have hquotient := quotient_memberRest names o.key (show ¬ IsWhitespace 0x3a by decide)
  rw [← hlang] at hquotient
  unfold AnyJson.resolveAnyColon at hr
  split at hr
  · cases hr
  · rename_i hresolve
    cases hr
    have hrepeated := h.keys.resolveKey hresolve
    rw [if_neg fun hfresh => hrepeated hfresh.2] at hquotient
    exact Reads.refuse hnil hquotient
  · rename_i keys id hresolve
    obtain ⟨hfresh, hkeys⟩ := h.keys.resolveKey hresolve
    rw [if_pos ⟨rfl, hfresh⟩] at hquotient
    obtain ⟨properties, -, hr⟩ := bind_ok hr
    split_ifs at hr
    cases hr
    refine ⟨(.object { o with properties, phase := .afterColonBeforeValue }, names ++ [o.key]) :: below, false,
      ⟨rfl, ⟨⟨nofun, nofun⟩, h.ok.2⟩, hkeys _, h.root⟩, ?_⟩
    rw [quotient_frame hnil, hquotient]
    rfl

theorem Reads.startAnyValue {o : AnyObjectState} {step : AnyStep} (h : Reads env s ((.object o, names) :: below) false)
    (hphase : o.phase = .afterColonBeforeValue) (hws : ¬ IsWhitespace b)
    (hr : AnyJson.startAnyValue env s o (below.map Prod.fst) b = .ok step) :
    Routed env b (stackLang ((.object o, names) :: below)) below step := by
  unfold AnyJson.startAnyValue at hr
  obtain ⟨s', hs, hr⟩ := bind_ok hr
  have hheld := h.setFrame (show Formed (.object { o with phase := .afterValueBeforeCommaOrClose }) from ⟨nofun, nofun⟩)
    (.inl ⟨_, _, rfl, rfl⟩)
  refine hheld.routeChild rfl hs hws ?_ hr below
  have hlang : frameLang names (.object o) = spaces * (values * objectTail names) := by
    rw [frameLang, objectLang, hphase]
  have hnil : [] ∉ frameLang names (.object o) := nil_notMem_objectLang names o
  rw [quotient_frame hnil, hlang, spaces, quotient_next hws, quotient_mul nil_notMem_values, mul_assoc]
  rfl

theorem Reads.routeAnyObjectByte {o : AnyObjectState} {step : AnyStep}
    (h : Reads env s ((.object o, names) :: below) false)
    (hr : AnyJson.routeAnyObjectByte env s o (below.map Prod.fst) b = .ok step) :
    Routed env b (stackLang ((.object o, names) :: below)) below step := by
  have hnil : [] ∉ frameLang names (.object o) := nil_notMem_objectLang names o
  obtain ⟨hstart, -⟩ := h.ok.1
  by_cases hkey : o.phase = .inKey
  · unfold AnyJson.routeAnyObjectByte at hr
    rw [hkey] at hr
    exact h.pushAnyKeyByte hkey hr
  by_cases hb : isWs b
  · -- white space, in whatever phase but inside a name
    have hstep : step = .advanced s := by
      unfold AnyJson.routeAnyObjectByte at hr
      cases hphase : o.phase <;> simp only [hphase, hb, if_true, Except.ok.injEq] at hr
      case start => exact absurd hphase hstart
      case inKey => exact absurd hphase hkey
      all_goals exact hr.symm
    rw [hstep]
    exact h.stay hnil (quotient_object_ws (isWs_iff.1 hb) hstart hkey)
  have hws : ¬ IsWhitespace b := fun h => hb (isWs_iff.2 h)
  have hlang : frameLang names (.object o) = objectLang names o := rfl
  unfold AnyJson.routeAnyObjectByte at hr
  unfold objectLang at hlang
  cases hphase : o.phase with
  | start => exact absurd hphase hstart
  | inKey => exact absurd hphase hkey
  | beforeFirstKeyOrClose =>
    rw [hphase] at hr hlang
    dsimp only at hr hlang
    rw [if_neg hb] at hr
    have hquotient := quotient_object_first names hws
    rw [← hlang] at hquotient
    split_ifs at hr hquotient with hquote hclose
    · cases hr
      exact h.goOn hnil ⟨nofun, fun _ => Begun.new⟩ (.inl ⟨_, _, rfl, rfl⟩) hquotient
    · cases hr
      exact h.close hnil hquotient
    · cases hr
      exact Reads.refuse hnil hquotient
  | afterKeyBeforeColon =>
    rw [hphase] at hr hlang
    dsimp only at hr hlang
    rw [if_neg hb] at hr
    split_ifs at hr with hcolon
    · cases hr
      refine Reads.refuse hnil ?_
      rw [hlang, quotient_memberRest _ _ hws, if_neg fun h => hcolon h.1]
    · rw [not_not] at hcolon
      subst hcolon
      exact h.resolveAnyColon hphase hr
  | afterColonBeforeValue =>
    rw [hphase] at hr
    dsimp only at hr
    rw [if_neg hb] at hr
    exact h.startAnyValue hphase hws hr
  | afterValueBeforeCommaOrClose =>
    rw [hphase] at hr hlang
    dsimp only at hr hlang
    rw [if_neg hb] at hr
    have hquotient := quotient_object_tail names hws
    rw [← hlang] at hquotient
    split_ifs at hr hquotient with hcomma hclose
    · cases hr
      exact h.goOn hnil ⟨nofun, nofun⟩ (.inl ⟨_, _, rfl, rfl⟩) hquotient
    · cases hr
      exact h.close hnil hquotient
    · cases hr
      exact Reads.refuse hnil hquotient
  | afterCommaBeforeKey =>
    rw [hphase] at hr hlang
    dsimp only at hr hlang
    rw [if_neg hb] at hr
    have hquotient := quotient_members names hws
    rw [← hlang] at hquotient
    split_ifs at hr with hquote
    · cases hr
      rw [if_neg hquote] at hquotient
      exact Reads.refuse hnil hquotient
    · cases hr
      rw [if_pos (not_not.1 hquote)] at hquotient
      exact h.goOn hnil ⟨nofun, fun _ => Begun.new⟩ (.inl ⟨_, _, rfl, rfl⟩) hquotient

/-- **What the innermost frame does with a byte.** -/
theorem Reads.routeAnyByte {f : AnyFrame} {step : AnyStep} (h : Reads env s ((f, names) :: below) false)
    (hr : AnyJson.routeAnyByte env s b = .ok step) : Routed env b (stackLang ((f, names) :: below)) below step := by
  unfold AnyJson.routeAnyByte at hr
  rw [h.frames] at hr
  cases f with
  | scalar phase bytes => exact h.routeAnyScalarByte hr
  | stringBody d bytes => exact h.routeAnyStringByte hr
  | array phase items => exact h.routeAnyArrayByte hr
  | object o => exact h.routeAnyObjectByte hr

/-! ### A whole byte -/

/-- What a byte leaves of the language when it has been routed. -/
def Taken (env : AnyEnv) (b : Byte) (L : Language Byte) : Option AnyState → Prop
  | none => L.leftQuotient [b] = 0
  | some s => ∃ stack closed, Reads env s stack closed ∧ stackLang stack = L.leftQuotient [b]

/-- White space after the text. -/
theorem taken_closed (h : Reads env s [] closed) : Taken env b spaces (if isWs b then some s else none) := by
  split_ifs with hb
  · exact ⟨[], closed, h, (quotient_letters (isWs_iff.1 hb)).symm⟩
  · exact quotient_letters_not fun h => hb (isWs_iff.2 h)

theorem Reads.routeLoop {b : Byte} :
    ∀ {n : Nat} {s : AnyState} {stack : List (AnyFrame × List Text)} {r : Option AnyState},
    Reads env s stack false → s.rootClosed = false → stack.length ≤ n → AnyJson.routeLoop env b n s = .ok r →
    Taken env b (stackLang stack) r
  | n, s, [], r, h, hroot, _, _ => by
    rw [h.root] at hroot
    cases hroot
  | 0, s, f :: below, r, _, _, hlen, _ => by simp at hlen
  | n + 1, s, (f, names) :: below, r, h, _, hlen, hr => by
    unfold AnyJson.routeLoop at hr
    obtain ⟨step, hroute, hr⟩ := bind_ok hr
    have hspec := h.routeAnyByte hroute
    cases step with
    | rejected =>
      cases hr
      exact hspec
    | advanced s' =>
      cases hr
      exact hspec
    | popped s' =>
      obtain ⟨hreads, hlang⟩ := hspec
      have hnext : Taken env b (stackLang below) r := by
        dsimp only at hr
        by_cases hclosed : s'.rootClosed
        · rw [if_pos hclosed] at hr
          cases hr
          have hnil : below = [] := List.isEmpty_iff.1 (hreads.root.symm.trans hclosed)
          subst hnil
          exact taken_closed hreads
        · rw [if_neg hclosed] at hr
          rw [List.length_cons] at hlen
          exact hreads.routeLoop (Bool.eq_false_iff.2 hclosed) (by omega) hr
      cases r with
      | none => exact hlang.symm.trans hnext
      | some s'' =>
        obtain ⟨stack, closed, hreads', hstack⟩ := hnext
        exact ⟨stack, closed, hreads', hstack.trans hlang⟩

theorem Reads.routeByte {stack : List (AnyFrame × List Text)} {r : Option AnyState} (h : Reads env s stack false)
    (hr : AnyJson.routeByte env s b = .ok r) : Taken env b (stackLang stack) r := by
  unfold AnyJson.routeByte at hr
  by_cases hclosed : s.rootClosed
  · rw [if_pos hclosed] at hr
    cases hr
    have hnil : stack = [] := List.isEmpty_iff.1 (h.root.symm.trans hclosed)
    subst hnil
    exact taken_closed h
  · rw [if_neg hclosed] at hr
    refine h.routeLoop (Bool.eq_false_iff.2 hclosed) ?_ hr
    rw [h.frames, List.length_map]

theorem nil_notMem_waiting {stack : List (AnyFrame × List Text)} (h : ∀ g ∈ stack, Waiting g.1) (hne : stack ≠ []) :
    [] ∉ stackLang stack := by
  cases stack with
  | nil => exact absurd rfl hne
  | cons g stack =>
    obtain ⟨f, names⟩ := g
    have hf : Waiting f := h (f, names) List.mem_cons_self
    intro hnil
    have hfirst := (nil_mem_mul.1 hnil).1
    cases f with
    | array phase items => exact nil_notMem_arrayLang phase hfirst
    | object o => exact nil_notMem_objectLang names o hfirst
    | _ => exact hf.elim

/-- **The state accepts exactly if nothing need follow.** -/
theorem Reads.accepts_iff {stack : List (AnyFrame × List Text)} (h : Reads env s stack closed) :
    accepts s = true ↔ [] ∈ stackLang stack := by
  unfold accepts
  rw [h.root, h.frames]
  cases stack with
  | nil => exact iff_of_true rfl nil_mem_letters
  | cons g below =>
    obtain ⟨f, names⟩ := g
    obtain ⟨hformed, hwaiting⟩ := h.ok
    show (false || _) = true ↔ _
    rw [Bool.false_or]
    show _ ↔ [] ∈ frameLang names f * stackLang below
    rw [nil_mem_mul]
    cases f with
    | scalar phase bytes =>
      show _ ↔ [] ∈ scalarLang phase ∧ _
      rw [nil_mem_scalarLang hformed]
      cases below with
      | nil => exact (and_iff_left nil_mem_letters).symm
      | cons g below =>
        exact iff_of_false nofun fun hnil => nil_notMem_waiting hwaiting (List.cons_ne_nil g below) hnil.2
    | stringBody d bytes => exact iff_of_false nofun fun hnil => nil_notMem_bodyThen hnil.1
    | array phase items => exact iff_of_false nofun fun hnil => nil_notMem_arrayLang phase hnil.1
    | object o => exact iff_of_false nofun fun hnil => nil_notMem_objectLang names o hnil.1

end Steps

/-! ## Runs -/

/-- A state between two bytes stands for what is left of the texts. -/
def StandsFor (env : AnyEnv) (s : AnyState) (L : Language Byte) : Prop :=
  ∃ stack, Reads env s stack false ∧ stackLang stack = L ∧ (s.accepting = true ↔ [] ∈ L)

theorem advance_ok {env : AnyEnv} {s : AnyState} {b : Byte} {r : Option AnyState} (h : advance env s b = .ok r) :
    ∃ routed, routeByte env { s with documentBytes := s.documentBytes + 1 } b = .ok routed ∧
      r = routed.map fun s => { s with accepting := accepts s, keys := s.keys.commit } := by
  unfold advance tryPushByte at h
  dsimp only at h
  split_ifs at h
  · cases h
  · cases h
  cases hroute : routeByte env { s with documentBytes := s.documentBytes + 1 } b with
  | error e =>
    rw [hroute] at h
    cases h
  | ok routed =>
    rw [hroute] at h
    cases h
    cases routed <;> exact ⟨_, rfl, rfl⟩

/-- **The machine follows the language.** -/
theorem follows (env : AnyEnv) : Follows (advance env) (StandsFor env) where
  taken := by
    rintro s s' _ b ⟨stack, h, rfl, -⟩ hs
    obtain ⟨routed, hroute, hs⟩ := advance_ok hs
    have hreads : Reads env { s with documentBytes := s.documentBytes + 1 } stack false :=
      ⟨h.frames, h.ok, h.keys, h.root⟩
    have htaken := hreads.routeByte hroute
    cases routed with
    | none => cases hs
    | some t =>
      cases hs
      obtain ⟨stack', closed, ht, hlang⟩ := htaken
      refine ⟨stack', ⟨ht.frames, ht.ok, ht.keys.commit, ht.root⟩, hlang, ?_⟩
      rw [← hlang]
      exact ht.accepts_iff
  refused := by
    rintro s _ b ⟨stack, h, rfl, -⟩ hs
    obtain ⟨routed, hroute, hs⟩ := advance_ok hs
    have hreads : Reads env { s with documentBytes := s.documentBytes + 1 } stack false :=
      ⟨h.frames, h.ok, h.keys, h.root⟩
    have htaken := hreads.routeByte hroute
    cases routed with
    | none => exact htaken
    | some t => cases hs

/-- The JSON texts in which no object repeats a name. -/
def texts : Language Byte := {w | ∃ a, JsonText a w ∧ a.Distinct}

theorem texts_eq : texts = stackLang [(.scalar .beforeValue 0, [])] := by
  ext w
  show _ ↔ w ∈ spaces * values * spaces
  constructor
  · rintro ⟨a, ⟨u, v, u', hu, h, hu', rfl⟩, ha⟩
    exact append_mem_mul (append_mem_mul hu ⟨a, h, ha⟩) hu'
  · intro hw
    obtain ⟨_, hv, u', hu', rfl⟩ := mem_mul.1 hw
    obtain ⟨u, hu, v, ⟨a, h, ha⟩, rfl⟩ := mem_mul.1 hv
    exact ⟨a, ⟨u, v, u', hu, h, hu', rfl⟩, ha⟩

theorem initial_standsFor (env : AnyEnv) : StandsFor env initial texts := by
  refine ⟨[(.scalar .beforeValue 0, [])], ⟨rfl, ⟨trivial, nofun⟩, ⟨[none], ?_, ?_, Fed.other .nil nofun, nofun⟩, rfl⟩,
    texts_eq.symm, ?_⟩
  · exact ⟨Nat.zero_le _, Nat.zero_le _, .cons .other .nil, List.pairwise_singleton _ _, nofun⟩
  · exact fun ms hms => by simp at hms
  · rw [texts_eq]
    exact iff_of_false nofun fun h => nil_notMem_values (nil_mem_mul.1 (nil_mem_mul.1 h).1).2

end AnyJson
end MaskForge
