import MaskForge.Structured.StringGrammar
/-!
# PendingScalar — which character a decoder can give next

Inside a character the decoder has settled some of it: the bytes read fix an interval of code points, or the first half
of a pair fixes the rest.  The query asks a predicate of every character still possible, of a symbolic answer where
these are a whole interval past the basic plane, and gives up where they are too many.
-/
namespace MaskForge
namespace JsonStringDecoder

def supplementary (high low : Nat) : Option Char :=
  if high < 0xd800 ∨ low < 0xdc00 then none else charFromU32 (0x10000 + (high - 0xd800) * 0x400 + (low - 0xdc00))

/-- `(lo..=hi).any`. -/
def anyIn (lo hi : Nat) (p : Nat → Bool) : Bool := (List.range' lo (hi + 1 - lo)).any p

def anyLowSurrogate (high : Nat) (predicate : Char → Bool) : Bool :=
  anyIn 0xdc00 0xdfff fun low => (supplementary high low).any predicate

/-- `visit_utf8`, which goes as deep as bytes are left. -/
def visitUtf8 (predicate : Char → Bool) : Nat → JsonStringDecoder → Bool
  | 0, _ => false
  | depth + 1, d => match d.utf8 with
    | .start => false
    | .continuation _ _ firstMin firstMax isFirst =>
      anyIn (if isFirst then firstMin else 0x80) (if isFirst then firstMax else 0xbf) fun byte =>
        match d.push (UInt8.ofNat byte) with
        | (.scalar value, _) => predicate value
        | (.cont, next) => visitUtf8 predicate depth next
        | (.invalid, _) => false

/-- Within `usize`. -/
def checkedUsize (n : Nat) : Option Nat := if n ≤ usizeMax then some n else none

/-- The digits of an escape with no first half waiting: from `start` to `stop` are the codes that begin with them. -/
def pendingUnicode (start stop maxCandidates : Nat) (predicate : Char → Bool)
    (supplementaryRange : Nat → Nat → Option Bool) : Option Bool :=
  if start ≤ 0xdbff ∧ 0xd800 ≤ stop then
    let highLo := max start 0xd800
    let highHi := min stop 0xdbff
    let lowerBmpHi := min stop 0xd7ff
    let lowerCount := if start ≤ lowerBmpHi then lowerBmpHi - start + 1 else 0
    let upperBmpLo := max start 0xe000
    let upperCount := if upperBmpLo ≤ stop then stop - upperBmpLo + 1 else 0
    if maxCandidates < lowerCount + upperCount then none
    else if anyIn start lowerBmpHi (fun cp => (charFromU32 cp).any predicate) ||
        anyIn upperBmpLo stop (fun cp => (charFromU32 cp).any predicate) then some true
    else supplementaryRange (0x10000 + (highLo - 0xd800) * 0x400) (0x10000 + (highHi - 0xd800) * 0x400 + 0x3ff)
  else if maxCandidates < stop + 1 - start then none
  else some (anyIn start stop fun cp => !decide (0xd800 ≤ cp ∧ cp ≤ 0xdfff) && (charFromU32 cp).any predicate)

/-- `any_pending_scalar_satisfies_with_supplementary`. -/
def anyPendingScalarSatisfies (d : JsonStringDecoder) (maxCandidates : Nat) (predicate : Char → Bool)
    (anyScalar : Option Bool) (supplementaryRange : Nat → Nat → Option Bool) : Option Bool :=
  match d.utf8 with
  | .continuation remaining _ firstMin firstMax isFirst => do
    let first := if isFirst then firstMax - firstMin + 1 else 64
    let tail ← checkedUsize (64 ^ (remaining - 1))
    let count ← checkedUsize (first * tail)
    if maxCandidates < count then none else some (visitUtf8 predicate remaining d)
  | .start => match d.escape, d.pendingHighSurrogate with
    | .unicode digits value, pendingHigh =>
      if 4 < digits then none
      else
        let count := 16 ^ (4 - digits)
        let start := value * count
        let stop := start + count - 1
        match pendingHigh with
        | some high => some (anyIn (max start 0xdc00) (min stop 0xdfff) fun low =>
            (supplementary high low).any predicate)
        | none => pendingUnicode start stop maxCandidates predicate supplementaryRange
    | .none, some high => if 1024 ≤ maxCandidates then some (anyLowSurrogate high predicate) else none
    | .started, some high => if 1024 ≤ maxCandidates then some (anyLowSurrogate high predicate) else none
    | .started, none => anyScalar
    | .none, none => none

theorem anyIn_iff {lo hi : Nat} {p : Nat → Bool} : anyIn lo hi p = true ↔ ∃ n, lo ≤ n ∧ n ≤ hi ∧ p n = true := by
  rw [anyIn, List.any_eq_true]
  simp only [List.mem_range'_1]
  constructor
  · rintro ⟨n, ⟨hlo, hhi⟩, hp⟩
    exact ⟨n, hlo, by omega, hp⟩
  · rintro ⟨n, hlo, hhi, hp⟩
    exact ⟨n, ⟨hlo, by omega⟩, hp⟩

theorem any_charFromU32 {cp : Nat} {predicate : Char → Bool} :
    (charFromU32 cp).any predicate = true ↔ ∃ c : Char, c.toNat = cp ∧ predicate c = true := by
  rw [Option.any_eq_true]
  constructor
  · rintro ⟨c, hc, hp⟩
    exact ⟨c, charFromU32_some hc, hp⟩
  · rintro ⟨c, rfl, hp⟩
    exact ⟨c, charFromU32_toNat c, hp⟩

/-! ### The next character -/

/-- Some bytes complete a character next. -/
def Emits (d : JsonStringDecoder) (c : Char) : Prop := ∃ w cs d', d.feed w = some (c :: cs, d')

/-- A byte at a time. -/
theorem emits_iff {d : JsonStringDecoder} {c : Char} :
    d.Emits c ↔ ∃ b d', d.push b = (.scalar c, d') ∨ (d.push b = (.cont, d') ∧ d'.Emits c) := by
  constructor
  · rintro ⟨w, cs, d', h⟩
    cases w with
    | nil => cases h
    | cons b w =>
      rw [feed] at h
      split at h
      · rename_i d₁ hpush
        exact ⟨b, d₁, .inr ⟨hpush, w, cs, d', h⟩⟩
      · rename_i c₁ d₁ hpush
        obtain ⟨r, _, heq⟩ := Option.map_eq_some_iff.1 h
        cases heq
        exact ⟨b, d₁, .inl hpush⟩
      · cases h
  · rintro ⟨b, d', hpush | ⟨hpush, w, cs, d₂, h⟩⟩
    · exact ⟨[b], [], d', feed_scalar hpush⟩
    · exact ⟨b :: w, cs, d₂, by rw [feed_cont hpush, h]⟩

/-- The next character is one the bytes begun can be completed to. -/
theorem At.spells_next {c : Char} {cs : List Char} {d' : JsonStringDecoder} :
    ∀ {w u : List Byte} {d : JsonStringDecoder}, At u d →
    d.feed w = some (c :: cs, d') → ∃ more, Spells (u ++ more) c
  | [], u, d, _, h => by cases h
  | b :: w, u, d, hat, h => by
    have hstep := hat.push b
    rw [feed] at h
    split at h
    · rename_i d₁ hpush
      rw [hpush] at hstep
      cases hstep with
      | cont hat₁ _ =>
        obtain ⟨more, hmore⟩ := hat₁.spells_next h
        exact ⟨b :: more, by rwa [List.append_assoc] at hmore⟩
    · rename_i c₁ d₁ hpush
      rw [hpush] at hstep
      obtain ⟨r, _, hr⟩ := Option.map_eq_some_iff.1 h
      cases hr
      cases hstep with
      | scalar hspells => exact ⟨[b], hspells⟩
    · cases h

/-- **What can come next is what the bytes of the character begun can be completed to.** -/
theorem emits_iff_spells {p : List Byte} {cs : List Char} {d : JsonStringDecoder} (h : new.feed p = some (cs, d)) :
    ∃ u, At u d ∧ ∀ c, d.Emits c ↔ ∃ more, Spells (u ++ more) c := by
  obtain ⟨done, u, heq, ⟨units, hall, hunits⟩, hat, _⟩ := feed_split (.boundary 0) h
  rw [List.nil_append] at heq
  have hfrom : feed (between cs.length) u = some ([], d) := by
    have hdone := feed_spelling hall 0
    rw [hunits, Nat.zero_add] at hdone
    rw [heq, feed_append, show new.feed done = _ from hdone, Option.bind_some] at h
    obtain ⟨⟨cs', d'⟩, hfeed, hpair⟩ := Option.map_eq_some_iff.1 h
    obtain ⟨hcs, rfl⟩ := Prod.mk.inj hpair
    have hnil : cs' = [] := List.append_right_eq_self.1 hcs
    rw [hfeed, hnil]
  refine ⟨u, hat, fun c => ⟨?_, ?_⟩⟩
  · rintro ⟨w, cs', d', hw⟩
    exact hat.spells_next hw
  · rintro ⟨more, hspells⟩
    have hwhole := feed_spells hspells cs.length
    rw [feed_append, hfrom, Option.bind_some] at hwhole
    obtain ⟨⟨cs', d'⟩, hfeed, hpair⟩ := Option.map_eq_some_iff.1 hwhole
    obtain ⟨hcs, rfl⟩ := Prod.mk.inj hpair
    exact ⟨more, [], _, by rw [hfeed, ← hcs]; rfl⟩

/-! ### Bytes of a raw character -/

/-- The walk over the bytes left tries every completion. -/
theorem visitUtf8_iff {predicate : Char → Bool} :
    ∀ {depth remaining cp lo hi n : Nat} {isFirst : Bool}, remaining ≤ depth → 1 ≤ remaining →
    hi ≤ 0xff → (visitUtf8 predicate depth ⟨.none, .continuation remaining cp lo hi isFirst, none, n⟩ = true ↔
      ∃ c, predicate c = true ∧ Emits ⟨.none, .continuation remaining cp lo hi isFirst, none, n⟩ c)
  | 0, remaining, cp, lo, hi, n, isFirst, hdepth, hpos, _ => by omega
  | depth + 1, remaining, cp, lo, hi, n, isFirst, hdepth, hpos, hhi => by
    have hpush : ∀ b : Byte, push ⟨.none, .continuation remaining cp lo hi isFirst, none, n⟩ b =
        if b.toNat < (if isFirst then lo else 0x80) ∨ (if isFirst then hi else 0xbf) < b.toNat then
          (.invalid, ⟨.none, .continuation remaining cp lo hi isFirst, none, n⟩)
        else if remaining = 1 then emitScalarCodepoint ⟨.none, .start, none, n⟩ (cp * 64 + b.toNat % 64)
        else (.cont, ⟨.none, .continuation (remaining - 1) (cp * 64 + b.toNat % 64) lo hi false, none, n⟩) := by
      intro b
      rw [push_eq rfl]
      rfl
    rw [visitUtf8]
    dsimp only
    rw [anyIn_iff]
    constructor
    · rintro ⟨byte, hlo', hhi', h⟩
      have hbyte : (UInt8.ofNat byte).toNat = byte := by
        rw [UInt8.toNat_ofNat', Nat.mod_eq_of_lt]
        split at hhi' <;> omega
      split at h
      · rename_i value d' hp
        exact ⟨value, h, emits_iff.2 ⟨_, _, .inl hp⟩⟩
      · rename_i next hp
        have hnext := hp
        rw [hpush, hbyte, if_neg (by omega)] at hnext
        split at hnext
        · unfold emitScalarCodepoint at hnext
          split at hnext <;> cases hnext
        · cases hnext
          obtain ⟨c, hc, hemits⟩ := (visitUtf8_iff (by omega) (by omega) hhi).1 h
          exact ⟨c, hc, emits_iff.2 ⟨_, _, .inr ⟨hp, hemits⟩⟩⟩
      · cases h
    · rintro ⟨c, hc, hemits⟩
      obtain ⟨b, d', hb⟩ := emits_iff.1 hemits
      have hrange : ¬ (b.toNat < (if isFirst then lo else 0x80) ∨ (if isFirst then hi else 0xbf) < b.toNat) := by
        intro hout
        have hp := hpush b
        rw [if_pos hout] at hp
        rcases hb with hb | ⟨hb, _⟩
        · rw [hp] at hb
          cases hb
        · rw [hp] at hb
          cases hb
      refine ⟨b.toNat, by omega, by omega, ?_⟩
      rw [UInt8.ofNat_toNat]
      rcases hb with hb | ⟨hb, hemits'⟩
      · rw [hb]
        exact hc
      · have hp := hpush b
        rw [if_neg hrange, hb] at hp
        rw [hb]
        split at hp
        · unfold emitScalarCodepoint at hp
          split at hp <;> cases hp
        · cases hp
          exact (visitUtf8_iff (by omega) (by omega) hhi).2 ⟨c, hc, hemits'⟩

/-! ### Escapes -/

/-- What an escape spells. -/
theorem spells_escape {w : List Byte} {c : Char} : Spells (unicodeEscape w) c ↔
    (w.length = 4 ∧ hexValue w = some c.toNat) ∨ ∃ high low hi lo, w = high ++ unicodeEscape low ∧ high.length = 4 ∧
    low.length = 4 ∧
      hexValue high = some hi ∧ hexValue low = some lo ∧ (0xd800 ≤ hi ∧ hi ≤ 0xdbff) ∧ (0xdc00 ≤ lo ∧ lo ≤ 0xdfff) ∧
        c.toNat = 0x10000 + (hi - 0xd800) * 0x400 + (lo - 0xdc00) := by
  constructor
  · intro h
    generalize hu : unicodeEscape w = u at h
    cases h with
    | raw c printable quote backslash =>
      exfalso
      by_cases hascii : c.toNat < 0x80
      · rw [utf8Encode_ascii hascii] at hu
        have hhead := congrArg UInt8.toNat (List.cons.inj hu).1
        rw [UInt8.toNat_ofNat', Nat.mod_eq_of_lt (by omega)] at hhead
        exact backslash (Char.toNat_inj.1 hhead.symm)
      · obtain ⟨lead, bs, size, lo, hi, bits, henc, hshape, _⟩ := shape_of_utf8Encode (Nat.le_of_not_lt hascii)
        rw [henc] at hu
        obtain ⟨rfl, _⟩ := List.cons.inj hu
        cases hshape
    | @short b c h =>
      obtain ⟨_, hu⟩ := List.cons.inj hu
      obtain ⟨rfl, _⟩ := List.cons.inj hu
      cases h
    | @unicode digits c four value =>
      cases hu
      exact .inl ⟨four, value⟩
    | @pair high low hi lo c high4 low4 highValue lowValue highRange lowRange code =>
      obtain ⟨_, hu⟩ := List.cons.inj hu
      obtain ⟨_, hu⟩ := List.cons.inj hu
      exact .inr ⟨high, low, hi, lo, hu, high4, low4, highValue, lowValue, highRange, lowRange, code⟩
  · rintro (⟨four, value⟩ | ⟨high, low, hi, lo, rfl, high4, low4, highValue, lowValue, highRange, lowRange, code⟩)
    · exact .unicode four value
    · exact .pair high4 low4 highValue lowValue highRange lowRange code

/-- The numbers that begin with some digits are an interval. -/
theorem hexValue_append {ds : List Byte} {v : Nat} (h : hexValue ds = some v) (more : List Byte) : ∀ {w : Nat},
    hexValue (ds ++ more) = some w → v * 16 ^ more.length ≤ w ∧ w < (v + 1) * 16 ^ more.length := by
  induction more using List.reverseRecOn with
  | nil =>
    intro w hw
    rw [List.append_nil, h] at hw
    cases hw
    simp
  | append_singleton more b ih =>
    intro w hw
    rw [← List.append_assoc, hexValue_snoc, Option.bind_eq_some_iff] at hw
    obtain ⟨w', hw', hw⟩ := hw
    obtain ⟨nibble, hb, rfl⟩ := Option.map_eq_some_iff.1 hw
    obtain ⟨hlo, hhi⟩ := ih hw'
    have hnibble := hexDigit_lt hb
    rw [List.length_append, List.length_singleton, Nat.pow_succ, ← Nat.mul_assoc, ← Nat.mul_assoc]
    omega

/-- Every number of four hexadecimal digits that begins with some is written by some. -/
theorem exists_digits {ds : List Byte} {v w : Nat} (h : hexValue ds = some v) (hfew : ds.length ≤ 4)
    (hlo : v * 16 ^ (4 - ds.length) ≤ w)
    (hhi : w < (v + 1) * 16 ^ (4 - ds.length)) : ∃ more, (ds ++ more).length = 4 ∧ hexValue (ds ++ more) = some w := by
  rw [Nat.succ_mul] at hhi
  obtain ⟨more, hlen, hvalue⟩ := exists_hexValue h (4 - ds.length) (w - v * 16 ^ (4 - ds.length)) (by omega)
  refine ⟨more, by rw [List.length_append]; omega, ?_⟩
  rw [hvalue]
  congr 1
  omega

/-- The code of a surrogate pair. -/
def pairCode (hi lo : Nat) : Nat := 0x10000 + (hi - 0xd800) * 0x400 + (lo - 0xdc00)

/-- Every character has an escape. -/
theorem exists_escape (c : Char) : ∃ w, Spells (unicodeEscape w) c := by
  have hvalid : c.toNat.isValidChar := c.valid
  unfold Nat.isValidChar at hvalid
  have hdigits : ∀ v, v < 0x10000 → ∃ ds, ds.length = 4 ∧ hexValue ds = some v := fun v hv =>
    @exists_digits [] 0 v rfl (Nat.zero_le _) (Nat.zero_le _) hv
  by_cases hbmp : c.toNat ≤ 0xffff
  · obtain ⟨ds, hlen, hvalue⟩ := hdigits c.toNat (by omega)
    exact ⟨ds, spells_escape.2 (.inl ⟨hlen, hvalue⟩)⟩
  · obtain ⟨high, high4, highValue⟩ := hdigits (0xd800 + (c.toNat - 0x10000) / 0x400) (by omega)
    obtain ⟨low, low4, lowValue⟩ := hdigits (0xdc00 + (c.toNat - 0x10000) % 0x400) (by omega)
    exact ⟨_, spells_escape.2 (.inr ⟨high, low, _, _, rfl, high4, low4, highValue, lowValue, by
      omega, by omega, by omega⟩)⟩

section
variable {ds es : List Byte} {v hi : Nat} {c : Char}

/-- After some digits: a character of the basic plane that begins with them, or a pair whose first half does. -/
theorem spells_digits (few : ds.length < 4) (value : hexValue ds = some v) :
    (∃ more, Spells (unicodeEscape ds ++ more) c) ↔
      (v * 16 ^ (4 - ds.length) ≤ c.toNat ∧ c.toNat < (v + 1) * 16 ^ (4 - ds.length)) ∨
        ∃ hi lo, (v * 16 ^ (4 - ds.length) ≤ hi ∧ hi < (v + 1) * 16 ^ (4 - ds.length)) ∧ (0xd800 ≤ hi ∧ hi ≤ 0xdbff) ∧
          (0xdc00 ≤ lo ∧ lo ≤ 0xdfff) ∧ c.toNat = pairCode hi lo := by
  have hmore : ∀ {more : List Byte} {w : Nat}, (ds ++ more).length = 4 → hexValue (ds ++ more) = some w →
      v * 16 ^ (4 - ds.length) ≤ w ∧ w < (v + 1) * 16 ^ (4 - ds.length) := by
    intro more w hlen hw
    rw [List.length_append] at hlen
    have hbounds := hexValue_append value more hw
    rwa [show more.length = 4 - ds.length by omega] at hbounds
  constructor
  · rintro ⟨more, h⟩
    rcases spells_escape.1 h with ⟨four, hw⟩ | ⟨high, low, hi, lo, heq, high4, low4, highValue, lowValue, highRange,
      lowRange, code⟩
    · exact .inl (hmore four hw)
    · have hpre : ds <+: high := List.prefix_of_prefix_length_le ⟨more, heq⟩ (List.prefix_append _ _) (by omega)
      obtain ⟨rest, rfl⟩ := hpre
      exact .inr ⟨hi, lo, hmore high4 highValue, highRange, lowRange, code⟩
  · rintro (⟨hlo, hhi⟩ | ⟨hi, lo, ⟨hlo, hhi⟩, highRange, lowRange, code⟩)
    · obtain ⟨more, four, hw⟩ := exists_digits value (Nat.le_of_lt few) hlo hhi
      exact ⟨more, spells_escape.2 (.inl ⟨four, hw⟩)⟩
    · obtain ⟨more, four, hw⟩ := exists_digits value (Nat.le_of_lt few) hlo hhi
      obtain ⟨low, low4, lowValue⟩ := @exists_digits [] 0 lo rfl (Nat.zero_le _) (Nat.zero_le _)
        (Nat.lt_of_le_of_lt lowRange.2 (by decide))
      refine ⟨more ++ unicodeEscape low, ?_⟩
      rw [← List.append_assoc]
      exact spells_escape.2 (.inr ⟨ds ++ more, low, hi, lo, rfl, four, low4, hw, lowValue, highRange, lowRange, code⟩)

/-- After a first half: whatever a second one makes of it. -/
theorem spells_half_iff (four : ds.length = 4) (value : hexValue ds = some hi) (range : 0xd800 ≤ hi ∧ hi ≤ 0xdbff)
    {begun : List Byte} (hbegun : begun <+: [0x5c, 0x75]) : (∃ more, Spells (unicodeEscape ds ++ begun ++ more) c) ↔
      ∃ lo, (0xdc00 ≤ lo ∧ lo ≤ 0xdfff) ∧ c.toNat = pairCode hi lo := by
  have hvalid : c.toNat.isValidChar := c.valid
  unfold Nat.isValidChar at hvalid
  constructor
  · rintro ⟨more, h⟩
    rw [List.append_assoc] at h
    rcases spells_escape.1 (show Spells (unicodeEscape (ds ++ (begun ++ more))) c from h) with
      ⟨hlen, hw⟩ | ⟨high, low, hi', lo, heq, high4, low4, highValue, lowValue, highRange, lowRange, code⟩
    · rw [List.length_append, four] at hlen
      rw [List.length_eq_zero_iff.1 (show (begun ++ more).length = 0 by omega), List.append_nil, value] at hw
      cases hw
      omega
    · obtain ⟨rfl, _⟩ := List.append_inj heq (four.trans high4.symm)
      rw [value] at highValue
      cases highValue
      exact ⟨lo, lowRange, code⟩
  · rintro ⟨lo, lowRange, code⟩
    obtain ⟨low, low4, lowValue⟩ := @exists_digits [] 0 lo rfl (Nat.zero_le _) (Nat.zero_le _)
      (Nat.lt_of_le_of_lt lowRange.2 (by decide))
    obtain ⟨rest, hrest⟩ := hbegun
    refine ⟨rest ++ low, ?_⟩
    have heq : unicodeEscape ds ++ begun ++ (rest ++ low) = unicodeEscape (ds ++ unicodeEscape low) := by
      rw [List.append_assoc, ← List.append_assoc begun, hrest]
      rfl
    rw [heq]
    exact spells_escape.2 (.inr ⟨ds, low, hi, lo, rfl, four, low4, value, lowValue, range, lowRange, code⟩)

/-- After a first half and some digits: the second halves that begin with them. -/
theorem spells_halfDigits (four : ds.length = 4) (high : hexValue ds = some hi) (range : 0xd800 ≤ hi ∧ hi ≤ 0xdbff)
    (few : es.length < 4)
    (value : hexValue es = some v) : (∃ more, Spells (unicodeEscape ds ++ unicodeEscape es ++ more) c) ↔
      ∃ lo, (v * 16 ^ (4 - es.length) ≤ lo ∧ lo < (v + 1) * 16 ^ (4 - es.length)) ∧ (0xdc00 ≤ lo ∧ lo ≤ 0xdfff) ∧
      c.toNat = pairCode hi lo := by
  constructor
  · rintro ⟨more, h⟩
    rw [List.append_assoc] at h
    rcases spells_escape.1 (show Spells (unicodeEscape (ds ++ (unicodeEscape es ++ more))) c from h) with
      ⟨hlen, _⟩ | ⟨high', low, hi', lo, heq, high4, low4, highValue, lowValue, highRange, lowRange, code⟩
    · rw [List.length_append, four] at hlen
      simp [unicodeEscape] at hlen
    · obtain ⟨rfl, hlow⟩ := List.append_inj heq (four.trans high4.symm)
      rw [high] at highValue
      cases highValue
      have hlow : es ++ more = low := (List.cons.inj (List.cons.inj hlow).2).2
      rw [← hlow] at low4 lowValue
      rw [List.length_append] at low4
      have hbounds := hexValue_append value more lowValue
      rw [show more.length = 4 - es.length by omega] at hbounds
      exact ⟨lo, hbounds, lowRange, code⟩
  · rintro ⟨lo, ⟨hlo, hhi⟩, lowRange, code⟩
    obtain ⟨more, low4, lowValue⟩ := exists_digits value (Nat.le_of_lt few) hlo hhi
    refine ⟨more, ?_⟩
    have heq : unicodeEscape ds ++ unicodeEscape es ++ more = unicodeEscape (ds ++ unicodeEscape (es ++ more)) := by
      rw [List.append_assoc]
      rfl
    rw [heq]
    exact spells_escape.2 (.inr ⟨ds, _, hi, lo, rfl, four, low4, high, lowValue, range, lowRange, code⟩)

end

/-! ### The query -/

theorem any_supplementary {high low : Nat} (hhigh : 0xd800 ≤ high) (hlow : 0xdc00 ≤ low) {predicate : Char → Bool} :
    (supplementary high low).any predicate = true ↔ ∃ c : Char, c.toNat = pairCode high low ∧ predicate c = true := by
  rw [supplementary, if_neg (by omega)]
  exact any_charFromU32

theorem anyLowSurrogate_iff {high : Nat} (hhigh : 0xd800 ≤ high) {predicate : Char → Bool} :
    anyLowSurrogate high predicate = true ↔
    ∃ c : Char, predicate c = true ∧ ∃ lo, (0xdc00 ≤ lo ∧ lo ≤ 0xdfff) ∧ c.toNat = pairCode high lo := by
  rw [anyLowSurrogate, anyIn_iff]
  constructor
  · rintro ⟨lo, hlo, hhi, h⟩
    obtain ⟨c, hc, hp⟩ := (any_supplementary hhigh hlo).1 h
    exact ⟨c, hp, lo, ⟨hlo, hhi⟩, hc⟩
  · rintro ⟨c, hp, lo, ⟨hlo, hhi⟩, hc⟩
    exact ⟨lo, hlo, hhi, (any_supplementary hhigh hlo).2 ⟨c, hc, hp⟩⟩

/-- **The digits' interval is searched exactly**: the basic plane one by one, and past it by the answer for the
interval of the pairs whose first half is in reach. -/
theorem pendingUnicode_iff {start stop maxCandidates : Nat} {predicate : Char → Bool}
    {supplementaryRange : Nat → Nat → Option Bool} (hsupplementary : ∀ a b r, supplementaryRange a b = some r →
      (r = true ↔ ∃ c : Char, a ≤ c.toNat ∧ c.toNat ≤ b ∧ predicate c = true))
    (hstop : stop ≤ 0xffff) {r : Bool} (h : pendingUnicode start stop maxCandidates predicate supplementaryRange =
      some r) :
    r = true ↔ ∃ c : Char, predicate c = true ∧ ((start ≤ c.toNat ∧ c.toNat ≤ stop) ∨ ∃ hi lo,
      (start ≤ hi ∧ hi ≤ stop) ∧
      (0xd800 ≤ hi ∧ hi ≤ 0xdbff) ∧ (0xdc00 ≤ lo ∧ lo ≤ 0xdfff) ∧ c.toNat = pairCode hi lo) := by
  unfold pendingUnicode at h
  split at h
  · rename_i hreach
    dsimp only at h
    generalize (if start ≤ min stop 0xd7ff then min stop 0xd7ff - start + 1 else 0) +
      (if max start 0xe000 ≤ stop then stop - max start 0xe000 + 1 else 0) = count at h
    split at h
    · cases h
    · split at h
      · rename_i hbmp
        cases h
        refine ⟨fun _ => ?_, fun _ => rfl⟩
        rw [Bool.or_eq_true, anyIn_iff, anyIn_iff] at hbmp
        rcases hbmp with ⟨n, hlo, hhi, hn⟩ | ⟨n, hlo, hhi, hn⟩
        all_goals
          obtain ⟨c, hc, hp⟩ := any_charFromU32.1 hn
          exact ⟨c, hp, .inl ⟨by omega, by omega⟩⟩
      · rename_i hbmp
        rw [Bool.or_eq_true, not_or, anyIn_iff, anyIn_iff] at hbmp
        rw [hsupplementary _ _ _ h]
        constructor
        · rintro ⟨c, hlo, hhi, hp⟩
          refine ⟨c, hp, .inr ⟨0xd800 + (c.toNat - 0x10000) / 0x400, 0xdc00 + (c.toNat - 0x10000) % 0x400, by
            omega, by omega, by omega, ?_⟩⟩
          unfold pairCode
          omega
        · rintro ⟨c, hp, ⟨hlo, hhi⟩ | ⟨hi, lo, ⟨hlo, hhi⟩, highRange, lowRange, code⟩⟩
          · exfalso
            have hvalid : c.toNat.isValidChar := c.valid
            unfold Nat.isValidChar at hvalid
            have hc := any_charFromU32.2 ⟨c, rfl, hp⟩
            by_cases hlower : c.toNat ≤ 0xd7ff
            · exact hbmp.1 ⟨c.toNat, hlo, by omega, hc⟩
            · exact hbmp.2 ⟨c.toNat, by omega, hhi, hc⟩
          · unfold pairCode at code
            exact ⟨c, by omega, by omega, hp⟩
  · rename_i hreach
    split at h
    · cases h
    · cases h
      rw [anyIn_iff]
      constructor
      · rintro ⟨n, hlo, hhi, hn⟩
        obtain ⟨c, hc, hp⟩ := any_charFromU32.1 (Bool.and_eq_true _ _ ▸ hn).2
        exact ⟨c, hp, .inl ⟨by omega, by omega⟩⟩
      · rintro ⟨c, hp, ⟨hlo, hhi⟩ | ⟨hi, lo, ⟨hlo, hhi⟩, highRange, lowRange, code⟩⟩
        · have hvalid : c.toNat.isValidChar := c.valid
          unfold Nat.isValidChar at hvalid
          refine ⟨c.toNat, hlo, hhi, ?_⟩
          rw [Bool.and_eq_true]
          exact ⟨by simp; omega, any_charFromU32.2 ⟨c, rfl, hp⟩⟩
        · omega

/-- **The query is exact whenever it answers.**  If the symbolic answers are exact, an answer says whether some bytes
complete next a character that the predicate takes. -/
theorem anyPendingScalarSatisfies_exact {p : List Byte} {cs : List Char} {d : JsonStringDecoder}
    (hreach : new.feed p = some (cs, d)) (maxCandidates : Nat) (predicate : Char → Bool) {anyScalar : Option Bool}
    {supplementaryRange : Nat → Nat → Option Bool}
    (hany : ∀ r, anyScalar = some r → (r = true ↔ ∃ c, predicate c = true))
    (hsupplementary : ∀ a b r, supplementaryRange a b = some r →
      (r = true ↔ ∃ c : Char, a ≤ c.toNat ∧ c.toNat ≤ b ∧ predicate c = true))
    {r : Bool} (h : d.anyPendingScalarSatisfies maxCandidates predicate anyScalar supplementaryRange = some r) :
    r = true ↔ ∃ c, predicate c = true ∧ ∃ w cs d', d.feed w = some (c :: cs, d') := by
  obtain ⟨u, hat, hemits⟩ := emits_iff_spells hreach
  show r = true ↔ ∃ c, predicate c = true ∧ d.Emits c
  cases hat with
  | boundary n => cases h
  | @tail lead bs size lo hi bits remaining n shape tails left more =>
    have hbounds := utf8LeadShape_some shape
    unfold anyPendingScalarSatisfies at h
    dsimp only at h
    obtain ⟨tail, _, h⟩ := Option.bind_eq_some_iff.1 h
    obtain ⟨count, _, h⟩ := Option.bind_eq_some_iff.1 h
    split at h
    · cases h
    · cases h
      exact visitUtf8_iff (Nat.le_refl _) more (by omega)
  | started n =>
    rw [hany r h]
    refine exists_congr fun c => ⟨fun hp => ⟨hp, (hemits c).2 ?_⟩, And.left⟩
    obtain ⟨w, hw⟩ := exists_escape c
    exact ⟨0x75 :: w, hw⟩
  | @digits ds v n few value =>
    unfold anyPendingScalarSatisfies at h
    dsimp only at h
    rw [if_neg (by omega)] at h
    have hlt := hexValue_lt value
    have hpos : 0 < 16 ^ (4 - ds.length) := Nat.pow_pos (by decide)
    have hstop : v * 16 ^ (4 - ds.length) + 16 ^ (4 - ds.length) ≤ 0x10000 := by
      calc v * 16 ^ (4 - ds.length) + 16 ^ (4 - ds.length) = (v + 1) * 16 ^ (4 - ds.length) := (Nat.succ_mul _ _).symm
        _ ≤ 16 ^ ds.length * 16 ^ (4 - ds.length) := Nat.mul_le_mul_right _ hlt
        _ = 16 ^ 4 := by rw [← Nat.pow_add]; congr 1; omega
    rw [pendingUnicode_iff hsupplementary (by omega) h]
    refine exists_congr fun c => and_congr_right fun _ => ?_
    rw [hemits c, spells_digits few value, Nat.succ_mul]
    generalize v * 16 ^ (4 - ds.length) = start at hstop
    generalize 16 ^ (4 - ds.length) = count at hstop hpos
    refine or_congr ⟨fun h => ⟨h.1, by omega⟩, fun h => ⟨h.1, by omega⟩⟩ ?_
    refine exists_congr fun hi => exists_congr fun lo => and_congr_left fun _ =>
      ⟨fun h => ⟨h.1, by omega⟩, fun h => ⟨h.1, by omega⟩⟩
  | @half ds hi n four value range =>
    unfold anyPendingScalarSatisfies at h
    dsimp only at h
    split at h
    · cases h
      rw [anyLowSurrogate_iff range.1]
      refine exists_congr fun c => and_congr_right fun _ => ?_
      rw [hemits c, ← spells_half_iff four value range (List.nil_prefix), List.append_nil]
    · cases h
  | @halfStarted ds hi n four value range =>
    unfold anyPendingScalarSatisfies at h
    dsimp only at h
    split at h
    · cases h
      rw [anyLowSurrogate_iff range.1]
      refine exists_congr fun c => and_congr_right fun _ => ?_
      rw [hemits c, ← spells_half_iff four value range (show ([0x5c] : List Byte) <+: [0x5c, 0x75] from ⟨[0x75], rfl⟩)]
    · cases h
  | @halfDigits ds es hi v n four high range few value =>
    unfold anyPendingScalarSatisfies at h
    dsimp only at h
    rw [if_neg (by omega)] at h
    cases h
    have hpos : 0 < 16 ^ (4 - es.length) := Nat.pow_pos (by decide)
    have hsucc : (v + 1) * 16 ^ (4 - es.length) = v * 16 ^ (4 - es.length) + 16 ^ (4 - es.length) := Nat.succ_mul _ _
    rw [anyIn_iff]
    constructor
    · rintro ⟨lo, hlo, hhi, hn⟩
      obtain ⟨c, hc, hp⟩ := (any_supplementary range.1 (by omega)).1 hn
      exact ⟨c, hp, (hemits c).2 ((spells_halfDigits four high range few value).2
        ⟨lo, ⟨by omega, by omega⟩, ⟨by omega, by omega⟩, hc⟩)⟩
    · rintro ⟨c, hp, hc⟩
      obtain ⟨lo, ⟨hlo, hhi⟩, lowRange, hcode⟩ := (spells_halfDigits four high range few value).1 ((hemits c).1 hc)
      exact ⟨lo, by omega, by omega, (any_supplementary range.1 lowRange.1).2 ⟨c, hcode, hp⟩⟩

/-- After `\u006`, the letter `a` can come. -/
theorem anyPendingScalarSatisfies_exact_letter :
    ∃ c, (c == 'a') = true ∧ ∃ w cs d', feed ⟨.unicode 3 6, .start, none, 0⟩ w = some (c :: cs, d') := by
  have hreach : new.feed [0x5c, 0x75, 0x30, 0x30, 0x36] = some ([], ⟨.unicode 3 6, .start, none, 0⟩) := rfl
  have hquery : anyPendingScalarSatisfies ⟨.unicode 3 6, .start, none, 0⟩ 16 (· == 'a') none (fun _ _ => none) =
    some true := by
    decide +kernel
  exact (anyPendingScalarSatisfies_exact hreach 16 (· == 'a') (fun _ h => by cases h)
    (fun _ _ _ h => by cases h) hquery).1 rfl

end JsonStringDecoder
end MaskForge
