import MaskForge.Primitives
/-!
# Spelling — the grammar of JSON string bodies

A character is spelled raw in UTF-8, by a short escape, by the four hexadecimal digits of its code, or by two such
escapes that make a surrogate pair; a string body is one spelling after another.  The bytes of a raw character are
described by its lead byte: how many bytes follow, and which the first of them may be.
-/
namespace MaskForge

/-- `u8::is_ascii_hexdigit` with its value. -/
def hexDigit (b : Byte) : Option Nat :=
  if 0x30 ≤ b.toNat ∧ b.toNat ≤ 0x39 then some (b.toNat - 0x30)
  else if 0x41 ≤ b.toNat ∧ b.toNat ≤ 0x46 then some (b.toNat - 0x37)
  else if 0x61 ≤ b.toNat ∧ b.toNat ≤ 0x66 then some (b.toNat - 0x57)
  else none

/-- The number some hexadecimal digits stand for. -/
def hexValue (digits : List Byte) : Option Nat :=
  digits.foldl (fun acc b => acc.bind fun v => (hexDigit b).map (16 * v + ·)) (some 0)

/-- The letter of a short escape, and the character it stands for. -/
def shortEscape (b : Byte) : Option Char :=
  if b = 0x22 then some '"'
  else if b = 0x5c then some '\\'
  else if b = 0x2f then some '/'
  else if b = 0x62 then some '\x08'
  else if b = 0x66 then some '\x0c'
  else if b = 0x6e then some '\n'
  else if b = 0x72 then some '\r'
  else if b = 0x74 then some '\t'
  else none

/-- Four digits after a backslash and a `u`. -/
def unicodeEscape (digits : List Byte) : List Byte := 0x5c :: 0x75 :: digits

/-- One spelling of one character. -/
inductive Spells : List Byte → Char → Prop
  | raw (c : Char) (printable : 0x20 ≤ c.toNat) (quote : c ≠ '"') (backslash : c ≠ '\\') :
    Spells (String.utf8EncodeChar c) c
  | short {b : Byte} {c : Char} (h : shortEscape b = some c) : Spells [0x5c, b] c
  | unicode {digits : List Byte} {c : Char} (four : digits.length = 4) (value : hexValue digits = some c.toNat) :
      Spells (unicodeEscape digits) c
  | pair {high low : List Byte} {hi lo : Nat} {c : Char} (high4 : high.length = 4) (low4 : low.length = 4)
      (highValue : hexValue high = some hi) (lowValue : hexValue low = some lo) (highRange : 0xd800 ≤ hi ∧ hi ≤ 0xdbff)
      (lowRange : 0xdc00 ≤ lo ∧ lo ≤ 0xdfff) (code : c.toNat = 0x10000 + (hi - 0xd800) * 0x400 + (lo - 0xdc00)) :
      Spells (unicodeEscape high ++ unicodeEscape low) c

/-- **A string body spells a list of characters**, one spelling each. -/
def Spelling (body : List Byte) (cs : List Char) : Prop := ∃ units, List.Forall₂ Spells units cs ∧ units.flatten = body

theorem Spelling.nil : Spelling [] [] := ⟨[], .nil, rfl⟩

theorem Spelling.single {u : List Byte} {c : Char} (h : Spells u c) : Spelling u [c] := ⟨[u], .cons h .nil, by simp⟩

theorem Spelling.append {a b : List Byte} {cs cs' : List Char} (h : Spelling a cs) (h' : Spelling b cs') :
    Spelling (a ++ b) (cs ++ cs') := by
  obtain ⟨units, hall, rfl⟩ := h
  obtain ⟨units', hall', rfl⟩ := h'
  exact ⟨units ++ units', List.rel_append hall hall', List.flatten_append⟩

/-! ### Hexadecimal digits -/

theorem hexDigit_iff {b : Byte} {v : Nat} :
    hexDigit b = some v ↔ (0x30 ≤ b.toNat ∧ b.toNat ≤ 0x39 ∧ v = b.toNat - 0x30) ∨
    (0x41 ≤ b.toNat ∧ b.toNat ≤ 0x46 ∧ v = b.toNat - 0x37) ∨
    (0x61 ≤ b.toNat ∧ b.toNat ≤ 0x66 ∧ v = b.toNat - 0x57) := by
  unfold hexDigit
  split_ifs <;> simp <;> omega

theorem hexDigit_lt {b : Byte} {v : Nat} (h : hexDigit b = some v) : v < 16 := by
  unfold hexDigit at h
  split at h
  · cases h
    omega
  · split at h
    · cases h
      omega
    · split at h
      · cases h
        omega
      · cases h

theorem hexValue_snoc (digits : List Byte) (b : Byte) :
    hexValue (digits ++ [b]) = (hexValue digits).bind fun v => (hexDigit b).map (16 * v + ·) := by
  unfold hexValue
  rw [List.foldl_append]
  rfl

theorem hexValue_lt {digits : List Byte} {v : Nat} (h : hexValue digits = some v) : v < 16 ^ digits.length := by
  induction digits using List.reverseRecOn generalizing v with
  | nil =>
    cases h
    exact Nat.one_pos
  | append_singleton digits b ih =>
    rw [hexValue_snoc, Option.bind_eq_some_iff] at h
    obtain ⟨v', hv', h⟩ := h
    obtain ⟨d, hd, rfl⟩ := Option.map_eq_some_iff.1 h
    have h1 := ih hv'
    have h2 := hexDigit_lt hd
    rw [List.length_append, List.length_singleton, Nat.pow_succ]
    omega

/-- Four digits and their number. -/
theorem hexValue_four {a b c d : Byte} {v : Nat} : hexValue [a, b, c, d] = some v ↔ ∃ x y z t,
    hexDigit a = some x ∧ hexDigit b = some y ∧ hexDigit c = some z ∧ hexDigit d = some t ∧ v = 4096 * x + 256 * y +
    16 * z + t := by
  cases ha : hexDigit a <;> cases hb : hexDigit b <;> cases hc : hexDigit c <;> cases hd : hexDigit d <;>
    simp [hexValue, ha, hb, hc, hd]
  omega

/-- The digit of a value below sixteen. -/
def hexLetter (v : Nat) : Byte := if v < 10 then UInt8.ofNat (0x30 + v) else UInt8.ofNat (0x57 + v)

theorem hexDigit_hexLetter {v : Nat} (h : v < 16) : hexDigit (hexLetter v) = some v := by
  unfold hexLetter hexDigit
  split
  · rw [UInt8.toNat_ofNat', if_pos (by omega)]
    congr 1
    omega
  · rw [UInt8.toNat_ofNat', if_neg (by omega), if_neg (by omega), if_pos (by omega)]
    congr 1
    omega

/-- Any digits can be completed to any number that begins with them. -/
theorem exists_hexValue {digits : List Byte} {v : Nat} (h : hexValue digits = some v) : ∀ (n r : Nat), r < 16 ^ n →
    ∃ more, more.length = n ∧ hexValue (digits ++ more) = some (v * 16 ^ n + r)
  | 0, r, hr => by
    rw [Nat.pow_zero, Nat.lt_one_iff] at hr
    subst hr
    exact ⟨[], rfl, by rw [List.append_nil, h, Nat.pow_zero, Nat.mul_one]; rfl⟩
  | n + 1, r, hr => by
    have hlow : r / 16 < 16 ^ n := by
      rw [Nat.pow_succ] at hr
      exact Nat.div_lt_of_lt_mul (by rwa [Nat.mul_comm] at hr)
    obtain ⟨more, hlen, hvalue⟩ := exists_hexValue h n (r / 16) hlow
    have hmore : (more ++ [hexLetter (r % 16)]).length = n + 1 := by
      rw [List.length_append, hlen, List.length_singleton]
    refine ⟨_, hmore, ?_⟩
    rw [← List.append_assoc, hexValue_snoc, hvalue, Option.bind_some, hexDigit_hexLetter (Nat.mod_lt _ (by decide))]
    show some (16 * (v * 16 ^ n + r / 16) + r % 16) = _
    congr 1
    have hpow : v * 16 ^ (n + 1) = 16 * (v * 16 ^ n) := by rw [Nat.pow_succ]; ring
    rw [hpow]
    omega

/-! ### Raw characters -/

/-- How many bytes follow a lead byte, the range of the first of them, and the bits the lead byte gives. -/
def utf8LeadShape (lead : Byte) : Option (Nat × Nat × Nat × Nat) :=
  if 0xc2 ≤ lead.toNat ∧ lead.toNat ≤ 0xdf then some (1, 0x80, 0xbf, lead.toNat % 0x20)
  else if lead.toNat = 0xe0 then some (2, 0xa0, 0xbf, lead.toNat % 0x10)
  else if 0xe1 ≤ lead.toNat ∧ lead.toNat ≤ 0xec then some (2, 0x80, 0xbf, lead.toNat % 0x10)
  else if lead.toNat = 0xed then some (2, 0x80, 0x9f, lead.toNat % 0x10)
  else if 0xee ≤ lead.toNat ∧ lead.toNat ≤ 0xef then some (2, 0x80, 0xbf, lead.toNat % 0x10)
  else if lead.toNat = 0xf0 then some (3, 0x90, 0xbf, lead.toNat % 0x08)
  else if 0xf1 ≤ lead.toNat ∧ lead.toNat ≤ 0xf3 then some (3, 0x80, 0xbf, lead.toNat % 0x08)
  else if lead.toNat = 0xf4 then some (3, 0x80, 0x8f, lead.toNat % 0x08)
  else none

/-- A continuation byte. -/
def IsTail (b : Byte) : Prop := 0x80 ≤ b.toNat ∧ b.toNat ≤ 0xbf

/-- The bytes after a lead byte, the first in a range of its own. -/
def Tails (lo hi : Nat) : List Byte → Prop
  | [] => True
  | b :: bs => (lo ≤ b.toNat ∧ b.toNat ≤ hi) ∧ ∀ c ∈ bs, IsTail c

/-- Six more bits from each byte. -/
def tailBits (cp : Nat) (bs : List Byte) : Nat := bs.foldl (fun cp b => cp * 64 + b.toNat % 64) cp

/-- `char::from_u32`. -/
def charFromU32 (cp : Nat) : Option Char := if cp.isValidChar then some (Char.ofNat cp) else none

theorem charFromU32_toNat (c : Char) : charFromU32 c.toNat = some c := by
  have hv : c.toNat.isValidChar := c.valid
  unfold charFromU32
  rw [if_pos hv, Char.ofNat_toNat]

theorem charFromU32_some {cp : Nat} {c : Char} (h : charFromU32 cp = some c) : c.toNat = cp := by
  unfold charFromU32 at h
  split at h
  · rename_i hv
    cases h
    simp only [Char.ofNat, hv, dif_pos]
    rfl
  · cases h

theorem exists_char (cp : Nat) (h : cp.isValidChar) : ∃ c : Char, c.toNat = cp :=
  ⟨Char.ofNat cp, charFromU32_some (if_pos h)⟩

/-- The lead bytes and what they say, by how many bytes follow. -/
theorem utf8LeadShape_some {lead : Byte} {n lo hi cp : Nat} (h : utf8LeadShape lead = some (n, lo, hi, cp)) :
    (n = 1 ∧ lead.toNat = 0xc0 + cp ∧ 2 ≤ cp ∧ cp < 0x20 ∧ lo = 0x80 ∧ hi = 0xbf) ∨
      (n = 2 ∧ lead.toNat = 0xe0 + cp ∧ cp < 0x10 ∧ (cp = 0 ∧ lo = 0xa0 ∧ hi = 0xbf ∨ cp = 0xd ∧ lo = 0x80 ∧ hi = 0x9f ∨
        cp ≠ 0 ∧ cp ≠ 0xd ∧ lo = 0x80 ∧ hi = 0xbf)) ∨
      (n = 3 ∧ lead.toNat = 0xf0 + cp ∧ (cp = 0 ∧ lo = 0x90 ∧ hi = 0xbf ∨ 1 ≤ cp ∧ cp ≤ 3 ∧ lo = 0x80 ∧ hi = 0xbf ∨
        cp = 4 ∧ lo = 0x80 ∧ hi = 0x8f)) := by
  unfold utf8LeadShape at h
  repeat' split at h
  all_goals cases h
  all_goals omega

theorem toNat_eq {b : Byte} {v : Nat} (h : v % 256 = b.toNat) : UInt8.ofNat v = b :=
  UInt8.toNat_inj.1 ((UInt8.toNat_ofNat').trans h)

/-- **A lead byte and the bytes it asks for are the UTF-8 of one character.** -/
theorem utf8Encode_of_shape {lead : Byte} {n lo hi cp : Nat} {bs : List Byte}
    (h : utf8LeadShape lead = some (n, lo, hi, cp)) (hbs : Tails lo hi bs) (hlen : bs.length = n) :
    ∃ c : Char, c.toNat = tailBits cp bs ∧ 0x80 ≤ c.toNat ∧ String.utf8EncodeChar c = lead :: bs := by
  have hshape := utf8LeadShape_some h
  match bs, hbs with
  | [], _ =>
    rw [List.length_nil] at hlen
    omega
  | [x], hbs =>
    have hx := hbs.1
    rw [List.length_singleton] at hlen
    obtain ⟨c, hc⟩ := exists_char (cp * 64 + x.toNat % 64) (by unfold Nat.isValidChar; omega)
    refine ⟨c, hc, by omega, ?_⟩
    have hv : c.val.toNat = cp * 64 + x.toNat % 64 := hc
    simp only [String.utf8EncodeChar, hv]
    rw [if_neg (by omega), if_pos (by omega)]
    rw [toNat_eq (b := lead) (by omega), toNat_eq (b := x) (by omega)]
  | [x, y], hbs =>
    have hx := hbs.1
    have hy : IsTail y := hbs.2 y (by simp)
    unfold IsTail at hy
    rw [List.length_cons, List.length_singleton] at hlen
    obtain ⟨c, hc⟩ := exists_char ((cp * 64 + x.toNat % 64) * 64 + y.toNat % 64) (by unfold Nat.isValidChar; omega)
    refine ⟨c, hc, by omega, ?_⟩
    have hv : c.val.toNat = (cp * 64 + x.toNat % 64) * 64 + y.toNat % 64 := hc
    simp only [String.utf8EncodeChar, hv]
    rw [if_neg (by omega), if_neg (by omega), if_pos (by omega)]
    rw [toNat_eq (b := lead) (by omega), toNat_eq (b := x) (by omega), toNat_eq (b := y) (by omega)]
  | [x, y, z], hbs =>
    have hx := hbs.1
    have hy : IsTail y := hbs.2 y (by simp)
    have hz : IsTail z := hbs.2 z (by simp)
    unfold IsTail at hy hz
    rw [List.length_cons, List.length_cons, List.length_singleton] at hlen
    obtain ⟨c, hc⟩ := exists_char (((cp * 64 + x.toNat % 64) * 64 + y.toNat % 64) * 64 + z.toNat % 64)
      (by unfold Nat.isValidChar; omega)
    refine ⟨c, hc, by omega, ?_⟩
    have hv : c.val.toNat = ((cp * 64 + x.toNat % 64) * 64 + y.toNat % 64) * 64 + z.toNat % 64 := hc
    simp only [String.utf8EncodeChar, hv]
    rw [if_neg (by omega), if_neg (by omega), if_neg (by omega)]
    rw [toNat_eq (b := lead) (by omega), toNat_eq (b := x) (by omega), toNat_eq (b := y) (by omega),
      toNat_eq (b := z) (by omega)]
  | _ :: _ :: _ :: _ :: _, _ =>
    simp only [List.length_cons] at hlen
    omega

theorem utf8LeadShape_one {lead : Byte} {cp : Nat} (h : lead.toNat = 0xc0 + cp) (hcp : 2 ≤ cp) (hlt : cp < 0x20) :
    utf8LeadShape lead = some (1, 0x80, 0xbf, cp) := by
  unfold utf8LeadShape
  rw [if_pos (by omega)]
  congr 2
  simp only [h, Prod.mk.injEq, true_and]
  omega

/-- The range of the first of two bytes. -/
def twoRange (cp : Nat) : Nat × Nat := if cp = 0 then (0xa0, 0xbf) else if cp = 0xd then (0x80, 0x9f) else (0x80, 0xbf)

theorem utf8LeadShape_two {lead : Byte} {cp : Nat} (h : lead.toNat = 0xe0 + cp) (hlt : cp < 0x10) :
    utf8LeadShape lead = some (2, (twoRange cp).1, (twoRange cp).2, cp) := by
  have hcp : lead.toNat % 0x10 = cp := by omega
  unfold utf8LeadShape twoRange
  rw [hcp]
  by_cases h0 : cp = 0
  · rw [if_neg (by omega), if_pos (by omega), if_pos h0]
  · by_cases hd : cp = 0xd
    · rw [if_neg (by omega), if_neg (by omega), if_neg (by omega), if_pos (by omega), if_neg h0, if_pos hd]
    · rw [if_neg h0, if_neg hd, if_neg (by omega), if_neg (by omega)]
      by_cases he : lead.toNat ≤ 0xec
      · rw [if_pos (by omega)]
      · rw [if_neg (by omega), if_neg (by omega), if_pos (by omega)]

/-- The range of the first of three bytes. -/
def threeRange (cp : Nat) : Nat × Nat := if cp = 0 then (0x90, 0xbf) else if cp = 4 then (0x80, 0x8f) else (0x80, 0xbf)

theorem utf8LeadShape_three {lead : Byte} {cp : Nat} (h : lead.toNat = 0xf0 + cp) (hlt : cp ≤ 4) :
    utf8LeadShape lead = some (3, (threeRange cp).1, (threeRange cp).2, cp) := by
  have hcp : lead.toNat % 0x08 = cp := by omega
  unfold utf8LeadShape threeRange
  rw [hcp, if_neg (by omega), if_neg (by omega), if_neg (by omega), if_neg (by omega), if_neg (by omega)]
  by_cases h0 : cp = 0
  · rw [if_pos (by omega), if_pos h0]
  · rw [if_neg (by omega), if_neg h0]
    by_cases hd : cp = 4
    · rw [if_neg (by omega), if_pos (by omega), if_pos hd]
    · rw [if_pos (by omega), if_neg hd]

/-- **The UTF-8 of a character past ASCII is a lead byte and the bytes it asks for.** -/
theorem shape_of_utf8Encode {c : Char} (hc : 0x80 ≤ c.toNat) :
    ∃ lead bs n lo hi cp, String.utf8EncodeChar c = lead :: bs ∧
    utf8LeadShape lead = some (n, lo, hi, cp) ∧ bs.length = n ∧ Tails lo hi bs ∧ c.toNat = tailBits cp bs := by
  have hvalid : c.toNat.isValidChar := c.valid
  unfold Nat.isValidChar at hvalid
  have hv : c.val.toNat = c.toNat := rfl
  generalize c.toNat = v at *
  have hbyte : ∀ x : Nat, x < 256 → (UInt8.ofNat x).toNat = x := fun x hx => by
    rw [UInt8.toNat_ofNat', Nat.mod_eq_of_lt hx]
  by_cases h1 : v ≤ 0x7ff
  · refine ⟨.ofNat (v / 64 % 0x20 + 0xc0), [.ofNat (v % 0x40 + 0x80)], 1, 0x80, 0xbf, v / 64, ?_,
      utf8LeadShape_one ?_ (by omega) (by omega), rfl, ?_, ?_⟩
    · simp only [String.utf8EncodeChar, hv]
      rw [if_neg (by omega), if_pos (by omega)]
    · rw [hbyte _ (by omega)]
      omega
    · refine ⟨?_, fun _ h => absurd h List.not_mem_nil⟩
      rw [hbyte _ (by omega)]
      omega
    · simp only [tailBits, List.foldl_cons, List.foldl_nil]
      rw [hbyte _ (by omega)]
      omega
  · by_cases h2 : v ≤ 0xffff
    · refine ⟨.ofNat (v / 4096 % 0x10 + 0xe0), [.ofNat (v / 64 % 0x40 + 0x80), .ofNat (v % 0x40 + 0x80)], 2, _, _,
        v / 4096, ?_, utf8LeadShape_two ?_ (by omega), rfl, ?_, ?_⟩
      · simp only [String.utf8EncodeChar, hv]
        rw [if_neg (by omega), if_neg (by omega), if_pos (by omega)]
      · rw [hbyte _ (by omega)]
        omega
      · refine ⟨?_, fun c hc => ?_⟩
        · rw [hbyte _ (by omega)]
          unfold twoRange
          split
          · omega
          · split <;> omega
        · rw [List.mem_singleton] at hc
          rw [hc, IsTail, hbyte _ (by omega)]
          omega
      · simp only [tailBits, List.foldl_cons, List.foldl_nil]
        rw [hbyte _ (by omega), hbyte _ (by omega)]
        omega
    · refine ⟨.ofNat (v / 262144 % 0x08 + 0xf0),
        [.ofNat (v / 4096 % 0x40 + 0x80), .ofNat (v / 64 % 0x40 + 0x80), .ofNat (v % 0x40 + 0x80)], 3, _, _,
        v / 262144, ?_, utf8LeadShape_three ?_ (by omega), rfl, ?_, ?_⟩
      · simp only [String.utf8EncodeChar, hv]
        rw [if_neg (by omega), if_neg (by omega), if_neg (by omega)]
      · rw [hbyte _ (by omega)]
        omega
      · refine ⟨?_, fun c hc => ?_⟩
        · rw [hbyte _ (by omega)]
          unfold threeRange
          split
          · omega
          · split <;> omega
        · rcases List.mem_cons.1 hc with rfl | hc
          · rw [IsTail, hbyte _ (by omega)]
            omega
          · rw [List.mem_singleton] at hc
            rw [hc, IsTail, hbyte _ (by omega)]
            omega
      · simp only [tailBits, List.foldl_cons, List.foldl_nil]
        rw [hbyte _ (by omega), hbyte _ (by omega), hbyte _ (by omega)]
        omega

/-- An ASCII character is its own byte. -/
theorem utf8Encode_ascii {c : Char} (hc : c.toNat < 0x80) : String.utf8EncodeChar c = [UInt8.ofNat c.toNat] := by
  simp only [String.utf8EncodeChar]
  exact if_pos (Nat.le_of_lt_succ hc)

end MaskForge
