import MaskForge.Structured.Spelling
/-!
# StringDecoder — the incremental decoder of JSON string bodies

Bytes come one at a time; each continues a character, completes one, or is refused.  Where the decoder stands is told
by the bytes of the character it is in: every byte it takes extends them, and what completes is a spelling.  What it
refuses it could refuse earlier in one place only: the digits of an escape are looked at when all four are there.
-/
namespace MaskForge

/-- The effect of one byte of a string body. -/
inductive DecodeStep where
  | cont
  | scalar (c : Char)
  | invalid

inductive EscapeState where
  | none
  | started
  | unicode (digits value : Nat)
  deriving DecidableEq

/-- `isFirst` says that the next byte is in `firstMin .. firstMax`; later ones are any continuation bytes. -/
inductive Utf8State where
  | start
  | continuation (remaining cp firstMin firstMax : Nat) (isFirst : Bool)
  deriving DecidableEq

structure JsonStringDecoder where
  escape : EscapeState
  utf8 : Utf8State
  pendingHighSurrogate : Option Nat
  decodedCodepoints : Nat
  deriving DecidableEq

namespace JsonStringDecoder

def new : JsonStringDecoder := ⟨.none, .start, none, 0⟩

/-- Whether the string could close now. -/
def atBoundary (d : JsonStringDecoder) : Bool :=
  decide (d.escape = .none) && decide (d.utf8 = .start) && d.pendingHighSurrogate.isNone

def emitScalarCodepoint (d : JsonStringDecoder) (cp : Nat) : DecodeStep × JsonStringDecoder :=
  match charFromU32 cp with
  | some c => (.scalar c, { d with decodedCodepoints := d.decodedCodepoints + 1 })
  | none => (.invalid, d)

def pushBodyByte (d : JsonStringDecoder) (b : Byte) : DecodeStep × JsonStringDecoder :=
  match d.utf8 with
  | .continuation remaining cp firstMin firstMax isFirst =>
    let lo := if isFirst then firstMin else 0x80
    let hi := if isFirst then firstMax else 0xbf
    if b.toNat < lo ∨ hi < b.toNat then (.invalid, d)
    else
      let cp := cp * 64 + b.toNat % 64
      if remaining = 1 then { d with utf8 := .start }.emitScalarCodepoint cp
      else (.cont, { d with utf8 := .continuation (remaining - 1) cp firstMin firstMax false })
  | .start =>
    if b.toNat ≤ 0x1f ∨ b.toNat = 0x22 then (.invalid, d)
    else if b.toNat = 0x5c then (.cont, { d with escape := .started })
    else if b.toNat ≤ 0x7f then d.emitScalarCodepoint b.toNat
    else match utf8LeadShape b with
      | some (remaining, firstMin, firstMax, cp) =>
        (.cont, { d with utf8 := .continuation remaining cp firstMin firstMax true })
      | none => (.invalid, d)

def pushEscapeSelector (d : JsonStringDecoder) (b : Byte) : DecodeStep × JsonStringDecoder :=
  let d := { d with escape := .none }
  match shortEscape b with
  | some c => d.emitScalarCodepoint c.toNat
  | none => if b = 0x75 then (.cont, { d with escape := .unicode 0 0 }) else (.invalid, d)

def pushUnicodeDigit (d : JsonStringDecoder) (b : Byte) (digits value : Nat) : DecodeStep × JsonStringDecoder :=
  match hexDigit b with
  | none => (.invalid, d)
  | some nibble =>
    let value := 16 * value + nibble
    if digits + 1 < 4 then (.cont, { d with escape := .unicode (digits + 1) value })
    else
      let d := { d with escape := .none }
      if 0xd800 ≤ value ∧ value ≤ 0xdbff then
        if d.pendingHighSurrogate.isSome then (.invalid, d) else (.cont, { d with pendingHighSurrogate := some value })
      else if 0xdc00 ≤ value ∧ value ≤ 0xdfff then
        match d.pendingHighSurrogate with
        | some high =>
          { d with pendingHighSurrogate := none }.emitScalarCodepoint
            (0x10000 + (high - 0xd800) * 0x400 + (value - 0xdc00))
        | none => (.invalid, d)
      else if d.pendingHighSurrogate.isSome then (.invalid, { d with pendingHighSurrogate := none })
      else d.emitScalarCodepoint value

/-- Between the halves of a surrogate pair nothing but the escape of the second half goes on. -/
def expectsUEscape (d : JsonStringDecoder) (b : Byte) : Bool :=
  match d.escape with
  | .none => b == 0x5c
  | .started => b == 0x75
  | .unicode _ _ => true

def push (d : JsonStringDecoder) (b : Byte) : DecodeStep × JsonStringDecoder :=
  if d.pendingHighSurrogate.isSome && !d.expectsUEscape b then (.invalid, d)
  else match d.escape with
    | .none => d.pushBodyByte b
    | .started => d.pushEscapeSelector b
    | .unicode digits value => d.pushUnicodeDigit b digits value

/-- The characters some bytes complete and the decoder after them; `none` once a byte is refused. -/
def feed : JsonStringDecoder → List Byte → Option (List Char × JsonStringDecoder)
  | d, [] => some ([], d)
  | d, b :: bs => match d.push b with
    | (.cont, d') => feed d' bs
    | (.scalar c, d') => (feed d' bs).map fun r => (c :: r.1, r.2)
    | (.invalid, _) => none

/-! ### Where a decoder stands -/

/-- The bytes of the character a decoder is in, none at a boundary. -/
inductive At : List Byte → JsonStringDecoder → Prop
  | boundary (n : Nat) : At [] ⟨.none, .start, none, n⟩
  | tail {lead : Byte} {bs : List Byte} {size lo hi bits remaining n : Nat}
      (shape : utf8LeadShape lead = some (size, lo, hi, bits))
      (tails : Tails lo hi bs) (left : bs.length + remaining = size) (more : 1 ≤ remaining) :
      At (lead :: bs) ⟨.none, .continuation remaining (tailBits bits bs) lo hi bs.isEmpty, none, n⟩
  | started (n : Nat) : At [0x5c] ⟨.started, .start, none, n⟩
  | digits {ds : List Byte} {v n : Nat} (few : ds.length < 4) (value : hexValue ds = some v) :
      At (unicodeEscape ds) ⟨.unicode ds.length v, .start, none, n⟩
  | half {ds : List Byte} {hi n : Nat} (four : ds.length = 4) (value : hexValue ds = some hi)
      (range : 0xd800 ≤ hi ∧ hi ≤ 0xdbff) :
      At (unicodeEscape ds) ⟨.none, .start, some hi, n⟩
  | halfStarted {ds : List Byte} {hi n : Nat} (four : ds.length = 4) (value : hexValue ds = some hi)
      (range : 0xd800 ≤ hi ∧ hi ≤ 0xdbff) : At (unicodeEscape ds ++ [0x5c]) ⟨.started, .start, some hi, n⟩
  | halfDigits {ds es : List Byte} {hi v n : Nat} (four : ds.length = 4) (high : hexValue ds = some hi)
      (range : 0xd800 ≤ hi ∧ hi ≤ 0xdbff) (few : es.length < 4) (value : hexValue es = some v) :
      At (unicodeEscape ds ++ unicodeEscape es) ⟨.unicode es.length v, .start, some hi, n⟩

/-- What a step from such a place does. -/
inductive Stepped (bytes : List Byte) (count : Nat) : DecodeStep × JsonStringDecoder → Prop
  | cont {d : JsonStringDecoder} (h : At bytes d) (hc : d.decodedCodepoints = count) : Stepped bytes count (.cont, d)
  | scalar {c : Char} (h : Spells bytes c) : Stepped bytes count (.scalar c, ⟨.none, .start, none, count + 1⟩)
  | invalid (d : JsonStringDecoder) : Stepped bytes count (.invalid, d)

theorem emitScalarCodepoint_eq {d : JsonStringDecoder} {c : Char} {cp : Nat} (h : c.toNat = cp) :
    d.emitScalarCodepoint cp = (.scalar c, { d with decodedCodepoints := d.decodedCodepoints + 1 }) := by
  rw [← h, emitScalarCodepoint, charFromU32_toNat]

/-- Without a first half waiting every byte goes to the state it is in. -/
theorem push_eq {d : JsonStringDecoder} {b : Byte}
    (h : (d.pendingHighSurrogate.isSome && !d.expectsUEscape b) = false) :
    d.push b = match d.escape with
      | .none => d.pushBodyByte b
      | .started => d.pushEscapeSelector b
      | .unicode digits value => d.pushUnicodeDigit b digits value := by
  rw [JsonStringDecoder.push, h]
  rfl

theorem hexValue_push {ds : List Byte} {v nibble : Nat} {b : Byte} (hv : hexValue ds = some v)
    (hb : hexDigit b = some nibble) :
    hexValue (ds ++ [b]) = some (16 * v + nibble) := by
  rw [hexValue_snoc, hv, Option.bind_some, hb]
  rfl

/-- **From every place, a byte continues the character, completes a spelling of it, or is refused.** -/
theorem At.push {bytes : List Byte} {d : JsonStringDecoder} (h : At bytes d) (b : Byte) :
    Stepped (bytes ++ [b]) d.decodedCodepoints (d.push b) := by
  cases h with
  | boundary n =>
    rw [push_eq rfl]
    unfold pushBodyByte
    dsimp only
    split
    · exact .invalid _
    · rename_i hlow
      split
      · rename_i hslash
        have hb : b = 0x5c := UInt8.toNat_inj.1 hslash
        rw [hb]
        exact .cont (.started n) rfl
      · rename_i hslash
        split
        · rename_i hascii
          obtain ⟨c, hc⟩ := exists_char b.toNat (by unfold Nat.isValidChar; omega)
          rw [emitScalarCodepoint_eq hc]
          have henc : String.utf8EncodeChar c = [b] := by rw [utf8Encode_ascii (by omega), hc, UInt8.ofNat_toNat]
          have hspell : Spells (String.utf8EncodeChar c) c := by
            refine .raw c (by omega) (fun he => ?_) fun he => ?_
            · rw [he] at hc
              exact hlow (.inr hc.symm)
            · rw [he] at hc
              exact hslash hc.symm
          rw [henc] at hspell
          exact .scalar hspell
        · cases hshape : utf8LeadShape b with
          | none => exact .invalid _
          | some shape =>
            obtain ⟨size, lo, hi, bits⟩ := shape
            have hsize : 1 ≤ size := by
              have := utf8LeadShape_some hshape
              omega
            exact .cont (@At.tail _ [] _ _ _ _ _ _ hshape trivial (Nat.zero_add _) hsize) rfl
  | @tail lead bs size lo hi bits remaining n shape tails left more =>
    rw [push_eq rfl]
    unfold pushBodyByte
    dsimp only
    by_cases hrange : b.toNat < (if bs.isEmpty then lo else 0x80) ∨ (if bs.isEmpty then hi else 0xbf) < b.toNat
    · rw [if_pos hrange]
      exact .invalid _
    · rw [if_neg hrange]
      have htails : Tails lo hi (bs ++ [b]) := by
        cases bs with
        | nil =>
          simp only [List.isEmpty_nil, if_true] at hrange
          exact ⟨by omega, fun _ h => absurd h List.not_mem_nil⟩
        | cons x xs =>
          simp only [List.isEmpty_cons, Bool.false_eq_true, if_false] at hrange
          refine ⟨tails.1, fun c hc => ?_⟩
          rcases List.mem_append.1 hc with hc | hc
          · exact tails.2 c hc
          · rw [List.mem_singleton.1 hc, IsTail]
            omega
      have hbits : tailBits bits bs * 64 + b.toNat % 64 = tailBits bits (bs ++ [b]) := by
        rw [tailBits, tailBits, List.foldl_append]
        rfl
      rw [hbits]
      split
      · rename_i hone
        obtain ⟨c, hc, hpast, henc⟩ := utf8Encode_of_shape shape htails
          (by rw [List.length_append, List.length_singleton]; omega)
        rw [emitScalarCodepoint_eq hc]
        have hspell : Spells (String.utf8EncodeChar c) c := by
          refine .raw c (by omega) (fun he => ?_) fun he => ?_
          · rw [he] at hpast
            exact absurd hpast (by decide)
          · rw [he] at hpast
            exact absurd hpast (by decide)
        rw [henc] at hspell
        exact .scalar hspell
      · have hempty : (bs ++ [b]).isEmpty = false := by simp
        rw [← hempty]
        have hleft : (bs ++ [b]).length + (remaining - 1) = size := by
          rw [List.length_append, List.length_singleton]
          omega
        exact .cont (.tail shape htails hleft (by omega)) rfl
  | started n =>
    rw [push_eq rfl]
    unfold pushEscapeSelector
    dsimp only
    split
    · rename_i c hc
      rw [emitScalarCodepoint_eq rfl]
      exact .scalar (.short hc)
    · split
      · rename_i hu
        rw [hu]
        exact .cont (@At.digits [] 0 _ (by decide) rfl) rfl
      · exact .invalid _
  | @digits ds v n few value =>
    rw [push_eq rfl]
    show Stepped (unicodeEscape (ds ++ [b])) n (pushUnicodeDigit _ b _ _)
    unfold pushUnicodeDigit
    split
    · exact .invalid _
    · rename_i nibble hb
      have hv := hexValue_push value hb
      have hlen : (ds ++ [b]).length = ds.length + 1 := by rw [List.length_append, List.length_singleton]
      dsimp only
      split
      · rename_i hfew
        rw [← hlen] at hfew ⊢
        exact .cont (.digits hfew hv) rfl
      · have hfour : (ds ++ [b]).length = 4 := by omega
        split
        · rename_i hhigh
          exact .cont (.half hfour hv hhigh) rfl
        · split
          · exact .invalid _
          · have hlt := hexValue_lt hv
            rw [hfour] at hlt
            obtain ⟨c, hc⟩ := exists_char (16 * v + nibble) (by unfold Nat.isValidChar; omega)
            rw [if_neg (by simp), emitScalarCodepoint_eq hc]
            refine .scalar (.unicode hfour ?_)
            rw [hv, hc]
  | @half ds hi n four value range =>
    unfold JsonStringDecoder.push expectsUEscape
    dsimp only
    by_cases hb : b = 0x5c
    · rw [hb]
      exact .cont (.halfStarted four value range) rfl
    · rw [if_pos (by simpa using hb)]
      exact .invalid _
  | @halfStarted ds hi n four value range =>
    unfold JsonStringDecoder.push expectsUEscape
    dsimp only
    by_cases hb : b = 0x75
    · rw [hb]
      have hu : unicodeEscape ds ++ [0x5c] ++ [0x75] = unicodeEscape ds ++ unicodeEscape [] := by
        rw [List.append_assoc]
        rfl
      rw [hu]
      exact .cont (@At.halfDigits _ [] _ 0 _ four value range (by decide) rfl) rfl
    · rw [if_pos (by simpa using hb)]
      exact .invalid _
  | @halfDigits ds es hi v n four high range few value =>
    have happend : unicodeEscape ds ++ unicodeEscape es ++ [b] = unicodeEscape ds ++ unicodeEscape (es ++ [b]) := by
      rw [List.append_assoc]
      rfl
    rw [happend, push_eq rfl]
    show Stepped _ n (pushUnicodeDigit _ b _ _)
    unfold pushUnicodeDigit
    split
    · exact .invalid _
    · rename_i nibble hb
      have hv := hexValue_push value hb
      have hlen : (es ++ [b]).length = es.length + 1 := by rw [List.length_append, List.length_singleton]
      dsimp only
      split
      · rename_i hfew
        rw [← hlen] at hfew ⊢
        exact .cont (.halfDigits four high range hfew hv) rfl
      · have hfour : (es ++ [b]).length = 4 := by omega
        split
        · exact .invalid _
        · split
          · rename_i hlow
            obtain ⟨c, hc⟩ := exists_char (0x10000 + (hi - 0xd800) * 0x400 + (16 * v + nibble - 0xdc00))
              (by unfold Nat.isValidChar; omega)
            rw [emitScalarCodepoint_eq hc]
            exact .scalar (.pair four hfour high hv range hlow hc)
          · exact .invalid _

end JsonStringDecoder
end MaskForge
