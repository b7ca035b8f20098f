import MaskForge.Structured.StringDecoder
/-!
# StringGrammar — what the string decoder accepts

The decoder takes exactly the string bodies of the grammar and gives the characters they spell.  A byte it refuses ends
every hope; a byte it takes leaves a prefix of a string body, except inside an escape whose digits so far can only name
a half of a surrogate pair in the wrong place: that one is refused at its fourth digit.
-/
namespace MaskForge
namespace JsonStringDecoder

/-- The decoder between two characters. -/
def between (n : Nat) : JsonStringDecoder := ⟨.none, .start, none, n⟩

theorem feed_append (a b : List Byte) : ∀ d : JsonStringDecoder,
    d.feed (a ++ b) = (d.feed a).bind fun r => (r.2.feed b).map fun s => (r.1 ++ s.1, s.2) := by
  induction a with
  | nil =>
    intro d
    simp [feed]
  | cons x a ih =>
    intro d
    rw [List.cons_append, feed, feed]
    split
    · exact ih _
    · rw [ih]
      rename_i c d' _
      cases h : d'.feed a with
      | none => rfl
      | some r =>
        rw [Option.bind_some, Option.map_some, Option.bind_some, Option.map_map]
        rfl
    · rfl

theorem feed_cont {d d' : JsonStringDecoder} {b : Byte} (h : d.push b = (.cont, d')) (bs : List Byte) :
    d.feed (b :: bs) = d'.feed bs := by
  rw [feed, h]

theorem feed_scalar {d d' : JsonStringDecoder} {b : Byte} {c : Char} (h : d.push b = (.scalar c, d')) :
    d.feed [b] = some ([c], d') := by
  rw [feed, h]
  rfl

/-! ### What is taken is spelled -/

/-- **Every run splits the bytes into finished characters and the one the decoder is in.** -/
theorem feed_split {b : List Byte} : ∀ {u : List Byte} {d d' : JsonStringDecoder} {cs : List Char}, At u d →
    d.feed b = some (cs, d') → ∃ done rest, u ++ b = done ++ rest ∧ Spelling done cs ∧ At rest d' ∧
      d'.decodedCodepoints = d.decodedCodepoints + cs.length := by
  induction b with
  | nil =>
    intro u d d' cs hat h
    cases h
    exact ⟨[], u, List.append_nil u, Spelling.nil, hat, rfl⟩
  | cons x b ih =>
    intro u d d' cs hat h
    have hstep := hat.push x
    rw [feed] at h
    split at h
    · rename_i d₁ hpush
      rw [hpush] at hstep
      cases hstep with
      | cont hat₁ hcount =>
        obtain ⟨done, rest, heq, hspell, hrest, hn⟩ := ih hat₁ h
        refine ⟨done, rest, ?_, hspell, hrest, by rw [hn, hcount]⟩
        rw [← heq, List.append_assoc]
        rfl
    · rename_i c d₁ hpush
      rw [hpush] at hstep
      cases hstep with
      | scalar hspells =>
        obtain ⟨⟨cs', d''⟩, hfeed, heq⟩ := Option.map_eq_some_iff.1 h
        cases heq
        obtain ⟨done, rest, hdone, ⟨units, hall, rfl⟩, hrest, hn⟩ := ih (.boundary _) hfeed
        rw [List.nil_append] at hdone
        refine ⟨(u ++ [x]) ++ units.flatten, rest, ?_, ⟨(u ++ [x]) :: units, .cons hspells hall, rfl⟩, hrest, ?_⟩
        · rw [List.append_assoc, ← hdone, List.append_assoc]
          rfl
        · rw [hn, List.length_cons]
          dsimp only
          omega
    · cases h

theorem At.boundary_eq {u : List Byte} {d : JsonStringDecoder} (h : At u d) (hb : d.atBoundary = true) :
    u = [] ∧ d = between d.decodedCodepoints := by
  cases h with
  | boundary n => exact ⟨rfl, rfl⟩
  | _ => simp [atBoundary] at hb

/-! ### What is spelled is taken -/

theorem push_backslash (n : Nat) : (between n).push 0x5c = (.cont, ⟨.started, .start, none, n⟩) := rfl

theorem push_u (p : Option Nat) (n : Nat) :
    JsonStringDecoder.push ⟨.started, .start, p, n⟩ 0x75 = (.cont, ⟨.unicode 0 0, .start, p, n⟩) := by
  cases p <;> rfl

theorem push_digit (k v n : Nat) (p : Option Nat) (b : Byte) :
    JsonStringDecoder.push ⟨.unicode k v, .start, p, n⟩ b = pushUnicodeDigit ⟨.unicode k v, .start, p, n⟩ b k v :=
  push_eq (by cases p <;> rfl)

/-- Digits are collected until the fourth. -/
theorem feed_digits {p : Option Nat} {n : Nat} {es : List Byte} : ∀ {ds : List Byte} {v w : Nat}, hexValue ds = some v →
    hexValue (ds ++ es) = some w → ds.length + es.length < 4 →
      feed ⟨.unicode ds.length v, .start, p, n⟩ es = some ([], ⟨.unicode (ds.length + es.length) w, .start, p, n⟩) := by
  induction es with
  | nil =>
    intro ds v w hv hw _
    rw [List.append_nil, hv] at hw
    cases hw
    rfl
  | cons b es ih =>
    intro ds v w hv hw hfew
    rw [List.length_cons] at hfew
    have happ : ds ++ b :: es = (ds ++ [b]) ++ es := by rw [List.append_assoc]; rfl
    have hlen : (ds ++ [b]).length = ds.length + 1 := by rw [List.length_append, List.length_singleton]
    cases hb : hexDigit b with
    | none =>
      have hnone : ∀ l, hexValue ((ds ++ [b]) ++ l) = none := by
        intro l
        induction l using List.reverseRecOn with
        | nil => rw [List.append_nil, hexValue_snoc, hv, Option.bind_some, hb]; rfl
        | append_singleton l x ih => rw [← List.append_assoc, hexValue_snoc, ih]; rfl
      rw [happ, hnone] at hw
      cases hw
    | some nibble =>
      have hpush : JsonStringDecoder.push ⟨.unicode ds.length v, .start, p, n⟩ b =
          (.cont, ⟨.unicode (ds ++ [b]).length (16 * v + nibble), .start, p, n⟩) := by
        rw [push_digit, pushUnicodeDigit, hb, hlen]
        exact if_pos (by omega)
      rw [feed_cont hpush, ih (hexValue_push hv hb) (happ ▸ hw) (by omega), hlen, List.length_cons]
      congr 4
      omega

/-- Four digits are three and the one that settles the number. -/
theorem feed_four {p : Option Nat} {n w : Nat} {ds : List Byte} (hw : hexValue ds = some w) (hfour : ds.length = 4) :
    ∃ (b : Byte) (low nibble : Nat), hexDigit b = some nibble ∧ 16 * low + nibble = w ∧
      feed ⟨.unicode 0 0, .start, p, n⟩ ds = feed ⟨.unicode 3 low, .start, p, n⟩ [b] := by
  have hne : ds ≠ [] := by
    rintro rfl
    cases hfour
  obtain ⟨three, b, rfl⟩ := (List.eq_nil_or_concat ds).resolve_left hne
  rw [List.concat_eq_append] at *
  rw [List.length_append, List.length_singleton] at hfour
  rw [hexValue_snoc, Option.bind_eq_some_iff] at hw
  obtain ⟨low, hlow, hw⟩ := hw
  obtain ⟨nibble, hb, hw⟩ := Option.map_eq_some_iff.1 hw
  have hthree := @feed_digits p n three [] 0 low rfl hlow (by rw [List.length_nil]; omega)
  rw [List.length_nil] at hthree
  refine ⟨b, low, nibble, hb, hw, ?_⟩
  rw [feed_append, hthree, Option.bind_some, show 0 + three.length = 3 by omega]
  simp

theorem feed_escape {n : Nat} (ds : List Byte) :
    feed (between n) (unicodeEscape ds) = feed ⟨.unicode 0 0, .start, none, n⟩ ds := by
  rw [unicodeEscape, feed_cont (push_backslash n), feed_cont (push_u none n)]

/-- The escape of the first half of a pair. -/
theorem feed_high {n hi : Nat} {ds : List Byte} (hv : hexValue ds = some hi) (hfour : ds.length = 4)
    (hr : 0xd800 ≤ hi ∧ hi ≤ 0xdbff) :
    feed (between n) (unicodeEscape ds) = some ([], ⟨.none, .start, some hi, n⟩) := by
  obtain ⟨b, low, nibble, hb, hw, hfeed⟩ := feed_four (p := none) (n := n) hv hfour
  have hpush : JsonStringDecoder.push ⟨.unicode 3 low, .start, none, n⟩ b = (.cont, ⟨.none, .start, some hi, n⟩) := by
    rw [push_digit, pushUnicodeDigit, hb]
    dsimp only
    rw [hw, if_neg (by decide), if_pos hr]
    rfl
  rw [feed_escape, hfeed, feed_cont hpush]
  rfl

/-- Continuation bytes are collected until the last. -/
theorem feed_tails {lo hi bits n : Nat} {c : Char} {more : List Byte} : ∀ {bs : List Byte},
    Tails lo hi (bs ++ more) → more ≠ [] → c.toNat = tailBits bits (bs ++ more) →
      feed ⟨.none, .continuation more.length (tailBits bits bs) lo hi bs.isEmpty, none, n⟩ more =
        some ([c], between (n + 1)) := by
  induction more with
  | nil => exact fun _ h _ => absurd rfl h
  | cons b more ih =>
    intro bs htails _ hcp
    have happ : bs ++ b :: more = (bs ++ [b]) ++ more := by rw [List.append_assoc]; rfl
    have hbits : tailBits bits bs * 64 + b.toNat % 64 = tailBits bits (bs ++ [b]) := by
      rw [tailBits, tailBits, List.foldl_append]
      rfl
    have hrange : ¬(b.toNat < (if bs.isEmpty then lo else 0x80) ∨ (if bs.isEmpty then hi else 0xbf) < b.toNat) := by
      cases bs with
      | nil =>
        have := htails.1
        simp only [List.isEmpty_nil, if_true]
        omega
      | cons x xs =>
        have hb : IsTail b := htails.2 b (by simp)
        unfold IsTail at hb
        simp only [List.isEmpty_cons, Bool.false_eq_true, if_false]
        omega
    by_cases hmore : more = []
    · subst hmore
      apply feed_scalar
      rw [push_eq rfl]
      unfold pushBodyByte
      dsimp only
      rw [if_neg hrange, hbits, if_pos List.length_singleton, emitScalarCodepoint_eq hcp]
      rfl
    · have hpush : JsonStringDecoder.push
          ⟨.none, .continuation (b :: more).length (tailBits bits bs) lo hi bs.isEmpty, none, n⟩ b =
            (.cont, ⟨.none, .continuation more.length (tailBits bits (bs ++ [b])) lo hi (bs ++ [b]).isEmpty,
              none, n⟩) := by
        have hlen := List.length_pos_iff.2 hmore
        rw [push_eq rfl]
        unfold pushBodyByte
        dsimp only
        rw [if_neg hrange, hbits, if_neg (by rw [List.length_cons]; omega), List.length_cons, Nat.add_sub_cancel]
        simp
      rw [feed_cont hpush]
      exact ih (happ ▸ htails) hmore (happ ▸ hcp)

/-- **A spelling of a character gives that character.** -/
theorem feed_spells {u : List Byte} {c : Char} (h : Spells u c) (n : Nat) :
    feed (between n) u = some ([c], between (n + 1)) := by
  cases h with
  | raw c printable quote backslash =>
    by_cases hascii : c.toNat < 0x80
    · rw [utf8Encode_ascii hascii]
      have hb : (UInt8.ofNat c.toNat).toNat = c.toNat := by rw [UInt8.toNat_ofNat', Nat.mod_eq_of_lt (by omega)]
      have hquote : c.toNat ≠ 0x22 := fun h => quote (Char.toNat_inj.1 h)
      have hslash : c.toNat ≠ 0x5c := fun h => backslash (Char.toNat_inj.1 h)
      apply feed_scalar
      rw [push_eq rfl]
      show pushBodyByte _ _ = _
      unfold pushBodyByte
      dsimp only [between]
      rw [hb, if_neg (by omega), if_neg hslash, if_pos (by omega), emitScalarCodepoint_eq rfl]
    · obtain ⟨lead, bs, size, lo, hi, bits, henc, hshape, hlen, htails, hcp⟩ :=
        shape_of_utf8Encode (Nat.le_of_not_lt hascii)
      have hlead := utf8LeadShape_some hshape
      have hpush : (between n).push lead = (.cont, ⟨.none, .continuation bs.length (tailBits bits []) lo hi true,
        none, n⟩) := by
        rw [push_eq rfl]
        show pushBodyByte _ _ = _
        unfold pushBodyByte
        dsimp only [between]
        rw [if_neg (by omega), if_neg (by omega), if_neg (by omega), hshape, hlen]
        rfl
      rw [henc, feed_cont hpush]
      refine @feed_tails _ _ _ _ _ _ [] htails ?_ hcp
      rintro rfl
      rw [List.length_nil] at hlen
      omega
  | @short b c h =>
    rw [feed_cont (push_backslash n)]
    apply feed_scalar
    rw [push_eq rfl]
    show pushEscapeSelector _ _ = _
    rw [pushEscapeSelector, h]
    exact emitScalarCodepoint_eq rfl
  | @unicode digits c four value =>
    have hvalid : c.toNat.isValidChar := c.valid
    unfold Nat.isValidChar at hvalid
    obtain ⟨b, low, nibble, hb, hw, hfeed⟩ := feed_four (p := none) (n := n) value four
    rw [feed_escape, hfeed]
    apply feed_scalar
    rw [push_digit, pushUnicodeDigit, hb]
    dsimp only
    rw [hw, if_neg (by decide), if_neg (by omega), if_neg (by omega), emitScalarCodepoint_eq rfl]
    rfl
  | @pair high low hi lo c high4 low4 highValue lowValue highRange lowRange code =>
    obtain ⟨b, three, nibble, hb, hw, hfeed⟩ := feed_four (p := some hi) (n := n) lowValue low4
    have hslash : JsonStringDecoder.push ⟨.none, .start, some hi, n⟩ 0x5c = (.cont, ⟨.started, .start, some hi, n⟩) :=
      rfl
    have hlast : JsonStringDecoder.push ⟨.unicode 3 three, .start, some hi, n⟩ b = (.scalar c, between (n + 1)) := by
      rw [push_digit, pushUnicodeDigit, hb]
      dsimp only
      rw [hw, if_neg (by decide), if_neg (by omega), if_pos lowRange, emitScalarCodepoint_eq code]
      rfl
    rw [feed_append, feed_high highValue high4 highRange, Option.bind_some]
    dsimp only
    rw [unicodeEscape, feed_cont hslash, feed_cont (push_u (some hi) n), hfeed, feed_scalar hlast]
    rfl

theorem feed_spelling {units : List (List Byte)} {cs : List Char} (h : List.Forall₂ Spells units cs) : ∀ n,
    feed (between n) units.flatten = some (cs, between (n + cs.length)) := by
  induction h with
  | nil => exact fun n => rfl
  | @cons u c units cs hu _ ih =>
    intro n
    rw [List.flatten_cons, feed_append, feed_spells hu, Option.bind_some, ih, Option.map_some, List.length_cons,
      show n + 1 + cs.length = n + (cs.length + 1) by omega]
    rfl

/-! ### Prefixes of string bodies -/

/-- Some continuation is a string body. -/
def Viable (p : List Byte) : Prop := ∃ more cs, Spelling (p ++ more) cs

/-- The digits so far name a half of a surrogate pair where it cannot stand: a second half with no first one before it,
or anything but a second half after a first one. -/
def doomed (d : JsonStringDecoder) : Prop :=
  match d.escape with
  | .unicode digits value =>
    let least := value * 16 ^ (4 - digits)
    let past := (value + 1) * 16 ^ (4 - digits)
    if d.pendingHighSurrogate.isSome then past ≤ 0xdc00 ∨ 0xe000 ≤ least else 0xdc00 ≤ least ∧ past ≤ 0xe000
  | _ => False

/-- The escape of the second half `U+DC00`. -/
def lowHalf : List Byte := unicodeEscape [0x44, 0x43, 0x30, 0x30]

theorem spells_half {ds : List Byte} {hi : Nat} (four : ds.length = 4) (value : hexValue ds = some hi)
    (range : 0xd800 ≤ hi ∧ hi ≤ 0xdbff) : ∃ c, Spells (unicodeEscape ds ++ lowHalf) c := by
  obtain ⟨c, hc⟩ := exists_char (0x10000 + (hi - 0xd800) * 0x400 + (0xdc00 - 0xdc00)) (by unfold Nat.isValidChar; omega)
  exact ⟨c, .pair four rfl value (by decide) range (by decide) hc⟩

/-- **A place that is not doomed leads to a whole character.** -/
theorem At.completes {u : List Byte} {d : JsonStringDecoder} (h : At u d) (hd : ¬ d.doomed) : Viable u := by
  cases h with
  | boundary n => exact ⟨[], [], Spelling.nil⟩
  | @tail lead bs size lo hi bits remaining n shape tails left more =>
    have hbounds := utf8LeadShape_some shape
    -- the first byte that may follow, then the least continuation bytes
    have hmore : ∃ rest, (bs ++ rest).length = size ∧ Tails lo hi (bs ++ rest) := by
      have htail : ∀ (k : Nat), ∀ b ∈ List.replicate k (0x80 : Byte), IsTail b := fun k b hb => by
        rw [(List.mem_replicate.1 hb).2]
        exact ⟨by decide, by decide⟩
      cases bs with
      | nil =>
        have hlo : (UInt8.ofNat lo).toNat = lo := by rw [UInt8.toNat_ofNat', Nat.mod_eq_of_lt (by omega)]
        refine ⟨UInt8.ofNat lo :: List.replicate (remaining - 1) 0x80, ?_, ?_, htail _⟩
        · rw [List.nil_append, List.length_cons, List.length_replicate]
          rw [List.length_nil] at left
          omega
        · rw [hlo]
          omega
      | cons x xs =>
        refine ⟨List.replicate remaining 0x80, ?_, tails.1, fun b hb => ?_⟩
        · rw [List.length_append, List.length_replicate]
          exact left
        · exact (List.mem_append.1 hb).elim (tails.2 b) (htail _ b)
    obtain ⟨rest, hlen, htails⟩ := hmore
    obtain ⟨c, _, hpast, henc⟩ := utf8Encode_of_shape shape htails hlen
    have hspell : Spells (String.utf8EncodeChar c) c := by
      refine .raw c (by omega) (fun he => ?_) fun he => ?_
      · rw [he] at hpast
        exact absurd hpast (by decide)
      · rw [he] at hpast
        exact absurd hpast (by decide)
    rw [henc] at hspell
    exact ⟨rest, [c], Spelling.single hspell⟩
  | started n => exact ⟨[0x6e], ['\n'], Spelling.single (.short rfl)⟩
  | @digits ds v n few value =>
    have hpow : (v + 1) * 16 ^ (4 - ds.length) = v * 16 ^ (4 - ds.length) + 16 ^ (4 - ds.length) := Nat.succ_mul _ _
    have hpos : 0 < 16 ^ (4 - ds.length) := Nat.pow_pos (by decide)
    simp only [doomed, hpow, Option.isSome_none, Bool.false_eq_true, if_false] at hd
    -- a number that begins with these digits and is not a second half
    obtain ⟨r, hr, hfit⟩ : ∃ r < 16 ^ (4 - ds.length),
        ¬(0xdc00 ≤ v * 16 ^ (4 - ds.length) + r ∧ v * 16 ^ (4 - ds.length) + r ≤ 0xdfff) := by
      by_cases hlow : v * 16 ^ (4 - ds.length) < 0xdc00
      · exact ⟨0, hpos, by omega⟩
      · exact ⟨16 ^ (4 - ds.length) - 1, by omega, by omega⟩
    obtain ⟨more, hlen, hvalue⟩ := exists_hexValue value _ r hr
    have hfour : (ds ++ more).length = 4 := by
      rw [List.length_append]
      omega
    have hlt := hexValue_lt hvalue
    rw [hfour] at hlt
    by_cases hhigh : 0xd800 ≤ v * 16 ^ (4 - ds.length) + r ∧ v * 16 ^ (4 - ds.length) + r ≤ 0xdbff
    · obtain ⟨c, hc⟩ := spells_half hfour hvalue hhigh
      refine ⟨more ++ lowHalf, [c], ?_⟩
      rw [← List.append_assoc]
      exact Spelling.single hc
    · obtain ⟨c, hc⟩ := exists_char _ (show (v * 16 ^ (4 - ds.length) + r).isValidChar by unfold Nat.isValidChar; omega)
      have hunicode : hexValue (ds ++ more) = some c.toNat := by rw [hvalue, hc]
      exact ⟨more, [c], Spelling.single (.unicode hfour hunicode)⟩
  | half four value range =>
    obtain ⟨c, hc⟩ := spells_half four value range
    exact ⟨lowHalf, [c], Spelling.single hc⟩
  | halfStarted four value range =>
    obtain ⟨c, hc⟩ := spells_half four value range
    refine ⟨[0x75, 0x44, 0x43, 0x30, 0x30], [c], ?_⟩
    rw [List.append_assoc]
    exact Spelling.single hc
  | @halfDigits ds es hi v n four high range few value =>
    have hpow : (v + 1) * 16 ^ (4 - es.length) = v * 16 ^ (4 - es.length) + 16 ^ (4 - es.length) := Nat.succ_mul _ _
    have hpos : 0 < 16 ^ (4 - es.length) := Nat.pow_pos (by decide)
    simp only [doomed, hpow, Option.isSome_some, if_true] at hd
    obtain ⟨r, hr, hfit⟩ : ∃ r < 16 ^ (4 - es.length),
        0xdc00 ≤ v * 16 ^ (4 - es.length) + r ∧ v * 16 ^ (4 - es.length) + r ≤ 0xdfff := by
      exact ⟨0xdc00 - v * 16 ^ (4 - es.length), by omega, by omega⟩
    obtain ⟨more, hlen, hvalue⟩ := exists_hexValue value _ r hr
    have hfour : (es ++ more).length = 4 := by
      rw [List.length_append]
      omega
    obtain ⟨c, hc⟩ := exists_char (0x10000 + (hi - 0xd800) * 0x400 + (v * 16 ^ (4 - es.length) + r - 0xdc00))
      (by unfold Nat.isValidChar; omega)
    refine ⟨more, [c], ?_⟩
    rw [List.append_assoc]
    exact Spelling.single (.pair four hfour high hvalue range hfit hc)

/-- A doomed decoder refuses the next byte or is doomed after it, until the fourth digit is refused. -/
theorem doomed_push {d : JsonStringDecoder} {k v : Nat} (he : d.escape = .unicode k v) (hk : k < 4) (hd : d.doomed)
    (b : Byte) :
    (d.push b).1 = .invalid ∨
      k + 1 < 4 ∧ (d.push b).1 = .cont ∧ ∃ v', (d.push b).2.escape = .unicode (k + 1) v' ∧ (d.push b).2.doomed := by
  have hpush : d.push b = d.pushUnicodeDigit b k v := by
    rw [push_eq (by rw [expectsUEscape, he]; simp), he]
  rw [hpush, pushUnicodeDigit]
  cases hb : hexDigit b with
  | none => exact .inl rfl
  | some nibble =>
    have hnibble := hexDigit_lt hb
    dsimp only
    simp only [doomed, he] at hd
    by_cases hmore : k + 1 < 4
    · rw [if_pos hmore]
      refine .inr ⟨hmore, rfl, _, rfl, ?_⟩
      have hpow : 16 ^ (4 - k) = 16 * 16 ^ (4 - (k + 1)) := by
        rw [show 4 - k = 4 - (k + 1) + 1 by omega, Nat.pow_succ, Nat.mul_comm]
      have hleast : v * 16 ^ (4 - k) ≤ (16 * v + nibble) * 16 ^ (4 - (k + 1)) := by
        rw [hpow, ← Nat.mul_assoc, Nat.mul_comm v 16]
        exact Nat.mul_le_mul_right _ (by omega)
      have hpast : (16 * v + nibble + 1) * 16 ^ (4 - (k + 1)) ≤ (v + 1) * 16 ^ (4 - k) := by
        rw [hpow, ← Nat.mul_assoc, Nat.mul_comm (v + 1) 16]
        exact Nat.mul_le_mul_right _ (by omega)
      simp only [doomed]
      split at hd
      · rename_i hp
        rw [if_pos hp]
        omega
      · rename_i hp
        rw [if_neg hp]
        omega
    · have hthree : k = 3 := by omega
      subst hthree
      rw [if_neg hmore]
      left
      cases hp : d.pendingHighSurrogate with
      | none =>
        simp only [hp, Option.isSome_none, Bool.false_eq_true, if_false] at hd ⊢
        rw [if_neg (by omega), if_pos (by omega)]
      | some high =>
        simp only [hp, Option.isSome_some, if_true] at hd ⊢
        by_cases hhigh : 0xd800 ≤ 16 * v + nibble ∧ 16 * v + nibble ≤ 0xdbff
        · rw [if_pos hhigh]
        · rw [if_neg hhigh, if_neg (by omega)]

/-- **Nothing that has all four digits goes past a doomed decoder.** -/
theorem doomed_feed {bs : List Byte} :
    ∀ {d : JsonStringDecoder} {k v : Nat}, d.escape = .unicode k v → k < 4 → d.doomed →
    4 ≤ k + bs.length → d.feed bs = none := by
  induction bs with
  | nil =>
    intro d k v _ hk _ hlen
    rw [List.length_nil] at hlen
    omega
  | cons b bs ih =>
    intro d k v he hk hd hlen
    rw [List.length_cons] at hlen
    rcases doomed_push he hk hd b with h | ⟨hmore, hcont, v', he', hd'⟩
    · rw [feed]
      split <;> simp_all
    · rw [feed_cont (Prod.ext hcont rfl)]
      exact ih he' hmore hd' (by omega)

/-- **The decoder takes the string bodies and gives what they spell.** -/
theorem feed_iff_spelling (b : List Byte) (cs : List Char) :
    (∃ d, new.feed b = some (cs, d) ∧ d.atBoundary = true) ↔ Spelling b cs := by
  constructor
  · rintro ⟨d, hfeed, hd⟩
    obtain ⟨done, rest, heq, hspell, hat, _⟩ := feed_split (.boundary 0) hfeed
    obtain ⟨rfl, _⟩ := hat.boundary_eq hd
    rw [List.nil_append, List.append_nil] at heq
    rwa [heq]
  · rintro ⟨units, hall, rfl⟩
    exact ⟨_, feed_spelling hall 0, rfl⟩

/-- A decoder that refuses has good reason to. -/
theorem viable_feed {p : List Byte} (h : Viable p) : (new.feed p).isSome := by
  obtain ⟨more, cs, h⟩ := h
  obtain ⟨d, hfeed, _⟩ := (feed_iff_spelling _ _).2 h
  rw [feed_append] at hfeed
  cases hp : new.feed p with
  | none => rw [hp] at hfeed; cases hfeed
  | some r => rfl

theorem viable_iff_not_doomed {p : List Byte} {cs : List Char} {d : JsonStringDecoder} (h : new.feed p = some (cs, d)) :
    (Viable p ↔ ¬ d.doomed) ∧
      (d.doomed → ∃ k v, d.escape = .unicode k v ∧ 1 ≤ k ∧ k < 4 ∧ ∀ more : List Byte, 4 ≤ k + more.length →
        d.feed more = none) := by
  obtain ⟨done, rest, heq, hspell, hat, _⟩ := feed_split (.boundary 0) h
  rw [List.nil_append] at heq
  -- only inside an escape, and after its first digit
  have hdoomed : d.doomed → ∃ k v, d.escape = .unicode k v ∧ 1 ≤ k ∧ k < 4 := by
    intro hd
    have hnonempty : ∀ {ds : List Byte} {v : Nat} {q : Option Nat} {n : Nat}, hexValue ds = some v →
        doomed ⟨.unicode ds.length v, .start, q, n⟩ → 1 ≤ ds.length := by
      intro ds v q n hv hd
      cases ds with
      | nil =>
        cases hv
        cases q <;> simp [doomed] at hd
      | cons x xs => exact Nat.le_add_left _ _
    cases hat with
    | digits few value => exact ⟨_, _, rfl, hnonempty value hd, few⟩
    | halfDigits four high range few value => exact ⟨_, _, rfl, hnonempty value hd, few⟩
    | _ => exact hd.elim
  have hlate : d.doomed → ∃ k v, d.escape = .unicode k v ∧ 1 ≤ k ∧ k < 4 ∧
      ∀ more : List Byte, 4 ≤ k + more.length → d.feed more = none := by
    intro hd
    obtain ⟨k, v, he, hk, hk4⟩ := hdoomed hd
    exact ⟨k, v, he, hk, hk4, fun more hmore => doomed_feed he hk4 hd hmore⟩
  refine ⟨⟨?_, fun hd => ?_⟩, hlate⟩
  · rintro ⟨more, cs', hmore⟩ hd
    obtain ⟨k, v, _, _, _, hnone⟩ := hlate hd
    -- a string body that goes on long enough to have the fourth digit
    have hletter : Spelling [0x6e] ['n'] := Spelling.single (.raw 'n' (by decide) (by decide) (by decide))
    have hlong := hmore.append (hletter.append (hletter.append (hletter.append hletter)))
    obtain ⟨d', hfeed, _⟩ := (feed_iff_spelling _ _).2 hlong
    have hfour : ∀ more : List Byte, 4 ≤ k + (more ++ ([0x6e] ++ ([0x6e] ++ ([0x6e] ++ [0x6e])))).length :=
      fun more => by
      simp only [List.length_append, List.length_singleton]
      omega
    rw [List.append_assoc, feed_append, h, Option.bind_some, hnone _ (hfour more)] at hfeed
    cases hfeed
  · obtain ⟨more, cs', hmore⟩ := hat.completes hd
    refine ⟨more, cs ++ cs', ?_⟩
    rw [heq, List.append_assoc]
    exact hspell.append hmore

/-- **The string decoder is the grammar of string bodies.**  It refuses no byte of a string body and gives its
characters and their number; a refused byte has no continuation; and a byte taken in vain is one of the first three
digits of an escape that is refused by its fourth. -/
theorem decodes_string_bodies :
    (∀ b cs, (∃ d, new.feed b = some (cs, d) ∧ d.atBoundary = true) ↔ Spelling b cs) ∧
      (∀ b cs d, new.feed b = some (cs, d) → d.atBoundary = true → d.decodedCodepoints = cs.length) ∧
      (∀ p c cs d, new.feed p = some (cs, d) → (d.push c).1 = .invalid → ¬ Viable (p ++ [c])) ∧
      ∀ p cs d, new.feed p = some (cs, d) → (Viable p ↔ ¬ d.doomed) ∧
        (d.doomed → ∃ k v, d.escape = .unicode k v ∧ 1 ≤ k ∧ k < 4 ∧
          ∀ more : List Byte, 4 ≤ k + more.length → d.feed more = none) := by
  refine ⟨feed_iff_spelling, ?_, ?_, fun p cs d => viable_iff_not_doomed⟩
  · intro b cs d hfeed _
    obtain ⟨_, _, _, _, _, hcount⟩ := feed_split (.boundary 0) hfeed
    rw [hcount]
    exact Nat.zero_add _
  · intro p c cs d hfeed hpush hviable
    have hsome := viable_feed hviable
    rw [feed_append, hfeed, Option.bind_some, feed] at hsome
    split at hsome <;> simp_all

/-- After a backslash, `ud` and `c` no string body goes on, and the decoder takes the `c`. -/
theorem low_half_taken_first : ¬ ∀ (p : List Byte) (c : Byte) (cs : List Char) (d : JsonStringDecoder),
    new.feed p = some (cs, d) → ¬ Viable (p ++ [c]) → (d.push c).1 = .invalid := by
  intro h
  have hd : doomed ⟨.unicode 2 0xdc, .start, none, 0⟩ := by simp [doomed]
  have hfeed : new.feed ([0x5c, 0x75, 0x64] ++ [0x63]) = some ([], ⟨.unicode 2 0xdc, .start, none, 0⟩) := rfl
  have hdead := mt (viable_iff_not_doomed hfeed).1.1 (not_not_intro hd)
  cases h [0x5c, 0x75, 0x64] 0x63 [] ⟨.unicode 1 0xd, .start, none, 0⟩ rfl hdead

end JsonStringDecoder
end MaskForge
