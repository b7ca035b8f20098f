import MaskForge.Structured.CanonicalDraft
/-!
# CanonicalReading — every spelling of a value is read as its canonical value

By induction over the grammar.  A number or a literal ends with the byte after it, so a value that has been read is
either a part of what is innermost or a scalar whose end is the next byte.
-/
namespace MaskForge
namespace Draft

open AnyJson (numberLang scalarLang stepLang numbers isWs_iff)
open Derivative (mem_quotient)
open Language (leftQuotient)
open NumberForm (NumberText)

variable {below : List Part}

/-! ### Scalars -/

theorem stepNumber_cont {p : NumberPhase} {b : Byte} {next : ScalarPhase} (h : stepNumber p b = .cont next) :
    ∃ q, next = .number q := by
  cases p <;> simp only [stepNumber] at h <;> split at h <;> (try split at h) <;> (try split at h) <;> cases h <;>
    exact ⟨_, rfl⟩

/-- The bytes of a number, all of them. -/
theorem feed_number : ∀ {w : List Byte} {p : NumberPhase} {text : List Byte}, w ∈ numberLang p →
    ∃ q, feed w ⟨.scalar (.number p) text :: below, none⟩ = some ⟨.scalar (.number q) (text ++ w) :: below, none⟩ ∧
      scalarIsComplete (.number q) = true
  | [], p, text, h => ⟨p, by rw [feed, List.append_nil], (AnyJson.nil_mem_numberLang p).1 h⟩
  | b :: w, p, text, h => by
    have hstep : w ∈ stepLang (stepNumber p b) := by
      rw [← AnyJson.quotient_numberLang]
      exact h
    cases hnext : stepNumber p b with
    | cont next =>
      obtain ⟨q, rfl⟩ := stepNumber_cont hnext
      rw [hnext] at hstep
      have hturn : turn b ⟨.scalar (.number p) text :: below, none⟩ = some
        (true, ⟨.scalar (.number q) (text ++ [b]) :: below, none⟩) := by
        simp only [turn, scalarTurn, stepScalar, hnext]
      obtain ⟨q', hfeed, hcomplete⟩ : ∃ q', feed w ⟨.scalar (.number q) (text ++ [b]) :: below, none⟩ =
          some ⟨.scalar (.number q') (text ++ [b] ++ w) :: below, none⟩ ∧ scalarIsComplete (.number q') = true :=
            feed_number hstep
      refine ⟨q', ?_, hcomplete⟩
      rw [feed, pushByte_open rfl hturn, Option.bind_some, hfeed, List.append_assoc]
      rfl
    | startString | startArray | startObject =>
      cases p <;> simp only [stepNumber] at hnext <;> split at hnext <;> (try split at hnext) <;>
        (try split at hnext) <;> cases hnext
    | done | invalid =>
      rw [hnext] at hstep
      exact hstep.elim

/-- The first byte of a number opens it. -/
theorem number_head {t : NumberText} (ht : t.Json) :
    ∃ b w p, t.text = b :: w ∧ stepScalar .beforeValue b = .cont (.number p) ∧ w ∈ numberLang p := by
  have hmem : t.text ∈ numbers := ⟨t, ht, rfl⟩
  cases hw : t.text with
  | nil =>
    have hvalue : [] ∈ AnyJson.values := hw ▸ ⟨_, .num t ht, trivial⟩
    exact absurd hvalue AnyJson.nil_notMem_values
  | cons b w =>
    have hrest : w ∈ numbers.leftQuotient [b] := by
      rw [hw] at hmem
      exact hmem
    rw [AnyJson.quotient_numbers] at hrest
    by_cases hminus : b = 0x2d
    · subst hminus
      exact ⟨_, w, .intFirst, rfl, rfl, hrest⟩
    rw [if_neg hminus] at hrest
    by_cases hzero : b = 0x30
    · subst hzero
      exact ⟨_, w, .intRest true, rfl, rfl, hrest⟩
    rw [if_neg hzero] at hrest
    by_cases hdigit : isDigit b = true
    · rw [if_pos hdigit] at hrest
      refine ⟨b, w, .intRest false, rfl, ?_, hrest⟩
      have hnot : ∀ c : Byte, isDigit c = false → b ≠ c := by
        rintro c hc rfl
        rw [hc] at hdigit
        cases hdigit
      rw [stepScalar, if_neg (hnot _ rfl), if_neg (hnot _ rfl), if_neg (hnot _ rfl), if_neg (hnot _ rfl),
        if_neg (hnot _ rfl), if_neg (hnot _ rfl), if_neg hminus, if_neg hzero, if_pos hdigit]
    · rw [if_neg hdigit] at hrest
      exact hrest.elim

/-- A number as a value. -/
theorem begin_number {t : NumberText} (ht : t.Json) (n : Nat) :
    ∃ q, begin (n + 1) t.text ⟨.valueStart :: below, none⟩ = some ⟨.scalar (.number q) t.text :: below, none⟩ ∧
      scalarIsComplete (.number q) = true := by
  obtain ⟨b, w, p, htext, hstep, hw⟩ := number_head ht
  have hturn : turn b ⟨.valueStart :: below, none⟩ = some (true, ⟨.scalar (.number p) [b] :: below, none⟩) := by
    simp only [turn, Part.valueStart, scalarTurn, hstep, List.nil_append]
  obtain ⟨q, hfeed, hcomplete⟩ : ∃ q, feed w ⟨.scalar (.number p) [b] :: below, none⟩ =
      some ⟨.scalar (.number q) ([b] ++ w) :: below, none⟩ ∧ scalarIsComplete (.number q) = true := feed_number hw
  refine ⟨q, ?_, hcomplete⟩
  rw [htext, begin, turns_used hturn, Option.bind_some, hfeed]
  rfl

/-! ### Strings -/

/-- The body of a string. -/
theorem feed_body {asKey : Bool} :
    ∀ {body u text : List Byte} {cs : Text} {decoder d' : JsonStringDecoder}, decoder.At u →
    decoder.feed body = some (cs, d') →
    feed body ⟨.str decoder text asKey :: below, none⟩ = some ⟨.str d' (text ++ textBytes cs) asKey :: below, none⟩
  | [], u, text, cs, decoder, d', _, h => by
    cases h
    rw [feed, textBytes, List.flatMap_nil, List.append_nil]
  | b :: body, u, text, cs, decoder, d', hat, h => by
    have hgoes : (decoder.push b).1 ≠ .invalid → ¬(b = 0x22 ∧ decoder.atBoundary = true) := by
      rintro hne ⟨rfl, hd⟩
      rw [hat.push_quote hd] at hne
      exact hne rfl
    rw [JsonStringDecoder.feed] at h
    have hstep := hat.push b
    rcases hpush : decoder.push b with ⟨step, next⟩
    rw [hpush] at h hstep hgoes
    cases step with
    | cont =>
      cases hstep with
      | cont hnext =>
        have hturn : turn b ⟨.str decoder text asKey :: below, none⟩ = some
          (true, ⟨.str next text asKey :: below, none⟩) := by
          simp only [turn, strTurn, if_neg (hgoes (by simp)), hpush]
        rw [feed, pushByte_open rfl hturn, Option.bind_some]
        exact feed_body hnext h
    | scalar c =>
      cases hstep with
      | scalar _ =>
        obtain ⟨⟨cs', e⟩, hrest, heq⟩ := Option.map_eq_some_iff.1 h
        cases heq
        have hturn : turn b ⟨.str decoder text asKey :: below, none⟩ =
            some (true, ⟨.str ⟨.none, .start, none, decoder.decodedCodepoints + 1⟩
              (text ++ String.utf8EncodeChar c) asKey :: below, none⟩) := by
          simp only [turn, strTurn, if_neg (hgoes (by simp)), hpush]
        rw [feed, pushByte_open rfl hturn, Option.bind_some, feed_body (.boundary _) hrest, List.append_assoc]
        rfl
    | invalid => cases h

/-- A string with its closing quote. -/
theorem feed_quoted {asKey : Bool} {body : List Byte} {s : Text} (h : Spelling body s) :
    feed (body ++ [0x22]) ⟨.str .new [] asKey :: below, none⟩ =
      if asKey then attachKey (textBytes s) below else attach (.string (textBytes s)) below := by
  obtain ⟨d, hfeed, hd⟩ := (JsonStringDecoder.feed_iff_spelling body s).2 h
  have hnew : JsonStringDecoder.new.At [] := .boundary 0
  rw [feed_append, feed_body hnew hfeed, Option.bind_some, feed, List.nil_append]
  have hturn : turn 0x22 ⟨.str d (textBytes s) asKey :: below, none⟩ =
      used (if asKey then attachKey (textBytes s) below else attach (.string (textBytes s)) below) := by
    show strTurn 0x22 d (textBytes s) asKey below = _
    rw [strTurn, if_pos ⟨rfl, hd⟩]
  cases hnext : (if asKey then attachKey (textBytes s) below else attach (.string (textBytes s)) below) with
  | none =>
    rw [hnext] at hturn
    rw [pushByte, if_neg (by simp), turns, hturn]
    rfl
  | some e =>
    rw [hnext] at hturn
    rw [pushByte_open rfl hturn]
    rfl

/-! ### What stands around values -/

/-- White space does not matter between the parts of a container. -/
theorem feed_ws {d : Draft} (hroot : d.root = none) (hturn : ∀ b, isWs b = true → turn b d = some (true, d)) :
    ∀ {u : List Byte}, Whitespace u → feed u d = some d
  | [], _ => rfl
  | b :: u, h => by
    obtain ⟨hb, hu⟩ := List.forall_mem_cons.1 h
    rw [feed, pushByte_open hroot (hturn b (isWs_iff.2 hb)), Option.bind_some]
    exact feed_ws hroot hturn hu

theorem turn_array_ws (items : List CanonicalValue) (b : Byte) (h : isWs b = true) :
    turn b ⟨.array items :: below, none⟩ = some (true, ⟨.array items :: below, none⟩) := if_pos (.inl h)

theorem turn_members_ws (members : List (List Byte × CanonicalValue)) (b : Byte) (h : isWs b = true) :
    turn b ⟨.object .keyOrClose members :: below, none⟩ = some (true, ⟨.object .keyOrClose members :: below, none⟩) :=
  if_pos (.inl h)

theorem turn_colon_ws (key : List Byte) (members : List (List Byte × CanonicalValue)) (b : Byte) (h : isWs b = true) :
    turn b ⟨.object (.colon key) members :: below, none⟩ = some (true, ⟨.object (.colon key) members :: below, none⟩) :=
  if_pos h

theorem turn_value_ws (key : List Byte) (members : List (List Byte × CanonicalValue)) (b : Byte) (h : isWs b = true) :
    turn b ⟨.object (.value key) members :: below, none⟩ = some (true, ⟨.object (.value key) members :: below, none⟩) :=
  if_pos h

/-- Such a byte is no part of a scalar. -/
def Delimiter (b : Byte) : Prop := isWs b = true ∨ b = 0x2c ∨ b = 0x5d ∨ b = 0x7d

theorem stepScalar_delimiter {phase : ScalarPhase} {b : Byte} (hc : scalarIsComplete phase = true) (hb : Delimiter b) :
    stepScalar phase b = .done := by
  rcases hb with hb | hb
  · exact stepScalar_ws hc hb
  have hnot : isDigit b = false ∧ b ≠ 0x2e ∧ b ≠ 0x65 ∧ b ≠ 0x45 := by
    rcases hb with rfl | rfl | rfl <;> decide
  obtain ⟨hd, h1, h2, h3⟩ := hnot
  cases phase with
  | literalDone => rfl
  | number p => cases p <;> simp_all [stepScalar, stepNumber, scalarIsComplete]
  | beforeValue | trueAt _ | falseAt _ | nullAt _ => cases hc

/-- **A delimiter after a value** finds the value in its place, also if it ends a scalar. -/
theorem Settled.push {v : CanonicalValue} {d d' : Draft} {o : Option Draft} {b : Byte} (h : Settled below v d)
    (hattach : attach v below = some d') (hroot : d'.root = none) (hb : Delimiter b) (hturn : turn b d' = used o) :
    pushByte d b = o := by
  rcases h with h | ⟨phase, text, rfl, hcomplete, hvalue⟩
  · obtain rfl : d = d' := Option.some.inj (h.symm.trans hattach)
    exact pushByte_used hroot hturn
  · have hfirst : turn b ⟨.scalar phase text :: below, none⟩ = some (false, d') := by
      show scalarTurn b phase text below = _
      rw [scalarTurn, stepScalar_delimiter hcomplete hb]
      simp only [hvalue, hattach, Option.bind_eq_bind, Option.bind_some, hroot]
      rfl
    rw [pushByte, if_neg (by simp), turns_unused hfirst]
    exact turns_as_used hturn 1

/-- White space and a delimiter after a value. -/
theorem Settled.feed {v : CanonicalValue} {d d' : Draft} {o : Option Draft} {u : List Byte} {b : Byte}
    (h : Settled below v d) (hattach : attach v below = some d') (hroot : d'.root = none)
    (hws : ∀ b, isWs b = true → turn b d' = some (true, d'))
    (hu : Whitespace u) (hb : Delimiter b) (hturn : turn b d' = used o) (rest : List Byte) :
    feed (u ++ b :: rest) d = o.bind (feed rest) := by
  cases u with
  | nil => rw [List.nil_append, Draft.feed, h.push hattach hroot hb hturn]
  | cons c u =>
    obtain ⟨hc, hu⟩ := List.forall_mem_cons.1 hu
    have hc := isWs_iff.2 hc
    have hspace : turn c d' = used (some d') := hws c hc
    rw [List.cons_append, Draft.feed, h.push hattach hroot (.inl hc) hspace, Option.bind_some, feed_append,
      feed_ws hroot hws hu, Option.bind_some, Draft.feed, pushByte_used hroot hturn]

/-- A value does not begin like a delimiter. -/
theorem derives_head {a : Ast} {w : List Byte} (h : Derives (.value a) w) :
    ∃ b w', w = b :: w' ∧ isWs b = false ∧ b ≠ 0x2c ∧ b ≠ 0x5d := by
  cases h with
  | null | bool_true | bool_false => exact ⟨_, _, rfl, by decide, by decide, by decide⟩
  | arr_nil | arr | obj_nil | obj => exact ⟨_, _, rfl, by decide, by decide, by decide⟩
  | str quoted =>
    obtain ⟨body, -, rfl⟩ := quoted
    exact ⟨_, _, rfl, by decide, by decide, by decide⟩
  | num t json =>
    obtain ⟨b, w, p, htext, hstep, -⟩ := number_head json
    refine ⟨b, w, htext, ?_, ?_, ?_⟩
    · by_contra hws
      rw [AnyJson.stepScalar_ws_before (isWs_iff.1 (by simpa using hws))] at hstep
      cases hstep
    · rintro rfl
      cases hstep
    · rintro rfl
      cases hstep

/-- The first byte of an item opens a frame for it. -/
theorem feed_item {items : List CanonicalValue} {w : List Byte} {a : Ast} (h : Derives (.value a) w)
    (rest : List Byte) :
    feed (w ++ rest) ⟨.array items :: below, none⟩ =
      (begin 2 w ⟨.valueStart :: .array items :: below, none⟩).bind (feed rest) := by
  obtain ⟨b, w', rfl, hws, hcomma, hclose⟩ := derives_head h
  have hturn : turn b ⟨.array items :: below, none⟩ = some (false, ⟨.valueStart :: .array items :: below, none⟩) := by
    show arrayTurn b items below = _
    rw [arrayTurn, if_neg (by simp [hws, hcomma]), if_neg hclose]
  rw [feed_append, feed, pushByte, if_neg (by simp), turns_unused hturn]
  rfl

/-- The first byte of a member's value opens a frame for it. -/
theorem feed_member {key : List Byte} {members : List (List Byte × CanonicalValue)} {w : List Byte} {a : Ast}
    (h : Derives (.value a) w) (rest : List Byte) : feed (w ++ rest) ⟨.object (.value key) members :: below, none⟩ =
      (begin 2 w ⟨.valueStart :: .object (.value key) members :: below, none⟩).bind (feed rest) := by
  obtain ⟨b, w', rfl, hws, -, -⟩ := derives_head h
  have hturn : turn b ⟨.object (.value key) members :: below, none⟩ =
      some (false, ⟨.valueStart :: .object (.value key) members :: below, none⟩) := by
    show objectTurn b (.value key) members below = _
    rw [objectTurn]
    exact if_neg (by simp [hws])
  rw [feed_append, feed, pushByte, if_neg (by simp), turns_unused hturn]
  rfl

/-- A key with its colon, and white space around them. -/
theorem feed_key {members : List (List Byte × CanonicalValue)} {u k u' w : List Byte} {key : Text} (hu : Whitespace u)
    (hk : Quoted k key) (hu' : Whitespace u') (hw : Whitespace w) :
    feed (u ++ k ++ u' ++ 0x3a :: w) ⟨.object .keyOrClose members :: below, none⟩ =
      some ⟨.object (.value (textBytes key)) members :: below, none⟩ := by
  obtain ⟨body, hbody, rfl⟩ := hk
  have hquote : turn 0x22 ⟨.object .keyOrClose members :: below, none⟩ =
      some (true, ⟨.str .new [] true :: .object .keyOrClose members :: below, none⟩) := rfl
  have hcolon : turn 0x3a ⟨.object (.colon (textBytes key)) members :: below, none⟩ =
      some (true, ⟨.object (.value (textBytes key)) members :: below, none⟩) := rfl
  rw [feed_append, feed_append, feed_append, feed_ws rfl (turn_members_ws members) hu, Option.bind_some,
    List.cons_append, feed, pushByte_open rfl hquote, Option.bind_some, feed_quoted hbody, if_pos rfl]
  show (Option.bind (feed u' ⟨.object (.colon (textBytes key)) members :: below, none⟩) _) = _
  rw [feed_ws rfl (turn_colon_ws _ members) hu', Option.bind_some, feed, pushByte_open rfl hcolon, Option.bind_some,
    feed_ws rfl (turn_value_ws _ members) hw]

/-! ### The grammar -/

/-- What is read of a derivation: a value in a frame opened for it, the items of an array and the members of an object
with their closing bracket. -/
def Reads : JsonForm → List Byte → Prop
  | .value a, w => ∀ below n, Expecting below → ∃ d, begin (n + 1) w ⟨.valueStart :: below, none⟩ = some d ∧
    Settled below a.canon d
  | .items as, w => ∀ items below,
      feed (w ++ [0x5d]) ⟨.array items :: below, none⟩ = attach (.array (items ++ Ast.canonItems as)) below
  | .members ms, w => ∀ members below, feed (w ++ [0x7d]) ⟨.object .keyOrClose members :: below, none⟩ =
      attach (CanonicalValue.objectOf (members ++ Ast.canonFields ms)) below

/-- The bracket that closes a container. -/
theorem feed_close {part : Part} {b : Byte} {o : Option Draft} (h : turn b ⟨part :: below, none⟩ = used o) :
    feed [b] ⟨part :: below, none⟩ = o := by
  rw [feed, pushByte_used rfl h]
  exact Option.bind_fun_some o

theorem close_array (items : List CanonicalValue) (below : List Part) :
    feed [0x5d] ⟨.array items :: below, none⟩ = attach (.array items) below := feed_close rfl

theorem close_object (members : List (List Byte × CanonicalValue)) (below : List Part) :
    feed [0x7d] ⟨.object .keyOrClose members :: below, none⟩ = attach (CanonicalValue.objectOf members) below :=
  feed_close rfl

/-- A container as a value. -/
theorem begin_container {part : Part} {b : Byte} {w : List Byte} {v : CanonicalValue} (n : Nat)
    (hbelow : Expecting below) (hfirst : turn b ⟨.valueStart :: below, none⟩ = some (true, ⟨part :: below, none⟩))
    (hrest : feed w ⟨part :: below, none⟩ = attach v below) :
    ∃ d, begin (n + 1) (b :: w) ⟨.valueStart :: below, none⟩ = some d ∧ Settled below v d := by
  obtain ⟨d, hd⟩ := attach_some hbelow v
  exact ⟨d, by rw [begin, turns_used hfirst, Option.bind_some, hrest, hd], .inl hd⟩

/-- An item with white space around it, and the delimiter after it. -/
theorem feed_item_then {items : List CanonicalValue} {u v w rest : List Byte} {a : Ast} {o : Option Draft} {b : Byte}
    (hu : Whitespace u) (h : Derives (.value a) v) (ih : Reads (.value a) v) (hw : Whitespace w) (hb : Delimiter b)
    (hturn : turn b ⟨.array (items ++ [a.canon]) :: below, none⟩ = used o) :
    feed (u ++ v ++ w ++ b :: rest) ⟨.array items :: below, none⟩ = o.bind (feed rest) := by
  obtain ⟨d, hbegin, hsettled⟩ := ih (.array items :: below) 1 trivial
  rw [List.append_assoc, List.append_assoc, feed_append, feed_ws rfl (turn_array_ws items) hu, Option.bind_some,
    feed_item h, hbegin, Option.bind_some, hsettled.feed rfl rfl (turn_array_ws _) hw hb hturn rest]

/-- A member with white space around it, and the delimiter after it. -/
theorem feed_member_then {members : List (List Byte × CanonicalValue)} {u k u' w v w' rest : List Byte}
    {key : Text} {a : Ast}
    {o : Option Draft} {b : Byte} (hu : Whitespace u) (hk : Quoted k key) (hu' : Whitespace u') (hw : Whitespace w)
    (h : Derives (.value a) v) (ih : Reads (.value a) v) (hw' : Whitespace w') (hb : Delimiter b)
    (hturn : turn b ⟨.object .keyOrClose (members ++ [(textBytes key, a.canon)]) :: below, none⟩ = used o) :
    feed (u ++ k ++ u' ++ 0x3a :: (w ++ v ++ w') ++ b :: rest) ⟨.object .keyOrClose members :: below, none⟩ =
    o.bind (feed rest) := by
  obtain ⟨d, hbegin, hsettled⟩ := ih (.object (.value (textBytes key)) members :: below) 1 trivial
  have hsplit : u ++ k ++ u' ++ 0x3a :: (w ++ v ++ w') ++ b :: rest = (u ++ k ++ u' ++ 0x3a :: w) ++
    (v ++ (w' ++ b :: rest)) := by simp
  rw [hsplit, feed_append, feed_key hu hk hu' hw, Option.bind_some, feed_member h, hbegin, Option.bind_some,
    hsettled.feed rfl rfl (turn_members_ws _) hw' hb hturn rest]

/-- **Every spelling is read.** -/
theorem reads {f : JsonForm} {w : List Byte} (h : Derives f w) : Reads f w := by
  induction h with
  | null => exact fun below n _ => ⟨⟨.scalar .literalDone literalNull :: below, none⟩, rfl, .inr ⟨_, _, rfl, rfl, rfl⟩⟩
  | bool_true =>
    exact fun below n _ => ⟨⟨.scalar .literalDone literalTrue :: below, none⟩, rfl, .inr ⟨_, _, rfl, rfl, rfl⟩⟩
  | bool_false =>
    exact fun below n _ => ⟨⟨.scalar .literalDone literalFalse :: below, none⟩, rfl, .inr ⟨_, _, rfl, rfl, rfl⟩⟩
  | num t json =>
    intro below n _
    obtain ⟨q, hbegin, hcomplete⟩ := begin_number json n
    obtain ⟨v, hv, -, -⟩ := NumberForm.finishNumber_text json.toLoose
    refine ⟨_, hbegin, .inr ⟨_, _, rfl, hcomplete, ?_⟩⟩
    rw [scalarValue, Ast.canon, hv]
    rfl
  | @str w s quoted =>
    intro below n hbelow
    obtain ⟨body, hbody, rfl⟩ := quoted
    refine begin_container n hbelow rfl ?_
    exact (feed_quoted hbody).trans (if_neg Bool.false_ne_true)
  | arr_nil hu =>
    intro below n hbelow
    refine begin_container n hbelow rfl ((feed_append _ _ _).trans ?_)
    rw [feed_ws rfl (turn_array_ws []) hu, Option.bind_some]
    exact close_array [] below
  | arr h ih =>
    intro below n hbelow
    exact begin_container n hbelow rfl (ih [] below)
  | obj_nil hu =>
    intro below n hbelow
    refine begin_container n hbelow rfl ((feed_append _ _ _).trans ?_)
    rw [feed_ws rfl (turn_members_ws []) hu, Option.bind_some]
    exact close_object [] below
  | obj h ih =>
    intro below n hbelow
    exact begin_container n hbelow rfl (ih [] below)
  | @item u v w a hu h hw ih =>
    intro items below
    exact (feed_item_then hu h ih hw (by simp [Delimiter]) rfl).trans (Option.bind_fun_some _)
  | @items u v w rest a as hu h hw more ih ihs =>
    intro items below
    have hcomma : turn 0x2c ⟨.array (items ++ [a.canon]) :: below, none⟩ = used
      (some ⟨.array (items ++ [a.canon]) :: below, none⟩) := rfl
    rw [List.append_assoc, List.cons_append, feed_item_then hu h ih hw (by simp [Delimiter]) hcomma, Option.bind_some,
      ihs, List.append_assoc]
    rfl
  | @member u k u' w v w' key a hu quoted hu' hw h hw' ih =>
    intro members below
    exact (feed_member_then hu quoted hu' hw h ih hw' (by simp [Delimiter]) rfl).trans (Option.bind_fun_some _)
  | @members u k u' w v w' rest key a ms hu quoted hu' hw h hw' more ih ihs =>
    intro members below
    have hcomma : turn 0x2c ⟨.object .keyOrClose (members ++ [(textBytes key, a.canon)]) :: below, none⟩ =
        used (some ⟨.object .keyOrClose (members ++ [(textBytes key, a.canon)]) :: below, none⟩) := rfl
    rw [List.append_assoc, List.cons_append, feed_member_then hu quoted hu' hw h ih hw' (by simp [Delimiter]) hcomma,
      Option.bind_some, ihs, List.append_assoc]
    rfl

/-- **A text of a value, with white space after it, is read as the canonical value.** -/
theorem finish_feed {a : Ast} {w u : List Byte} (h : Derives (.value a) w) (hu : Whitespace u) :
    ∃ d, feed (w ++ u) start = some d ∧ d.finish = some a.canon := by
  obtain ⟨d, hbegin, hsettled⟩ := reads h [] 2 trivial
  obtain ⟨b, w', rfl, -, -, -⟩ := derives_head h
  have hfeed : feed (b :: w') start = some d := hbegin
  rw [feed_append, hfeed, Option.bind_some]
  have hdone : ∀ u, Whitespace u → feed u ⟨[], some a.canon⟩ = some ⟨[], some a.canon⟩ := by
    intro u hu
    induction u with
    | nil => rfl
    | cons c u ih =>
      obtain ⟨hc, hu⟩ := List.forall_mem_cons.1 hu
      have hc := isWs_iff.2 hc
      have hpush : pushByte ⟨[], some a.canon⟩ c = some ⟨[], some a.canon⟩ := if_pos hc
      rw [feed, hpush, Option.bind_some, ih hu]
  rcases hsettled with hattach | ⟨phase, text, rfl, hcomplete, hvalue⟩
  · obtain rfl : _ = d := Option.some.inj hattach
    exact ⟨_, hdone u hu, rfl⟩
  · cases u with
    | nil => exact ⟨_, rfl, hvalue⟩
    | cons c u =>
      obtain ⟨hc, hu⟩ := List.forall_mem_cons.1 hu
      have hturn : turn c ⟨[.scalar phase text], none⟩ = some (true, ⟨[], some a.canon⟩) := by
        show scalarTurn c phase text [] = _
        rw [scalarTurn, stepScalar_ws hcomplete (isWs_iff.2 hc)]
        simp only [hvalue, Option.bind_eq_bind, Option.bind_some]
        rfl
      refine ⟨⟨[], some a.canon⟩, ?_, rfl⟩
      rw [feed, pushByte_open rfl hturn, Option.bind_some, hdone u hu]

end Draft
end MaskForge
