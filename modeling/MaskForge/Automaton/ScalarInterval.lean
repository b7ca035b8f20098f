import MaskForge.Automaton.FromRows
import MaskForge.Automaton.Graph
import MaskForge.Structured.Spelling
/-!
# ScalarInterval — which characters an engine can consume

UTF-8 keeps the order of the characters: among encodings of one length the bytes compare as the code points do.  So the
encodings of an interval are the byte strings between its ends, and the search walks those, remembering only whether a
walk still follows the lower end or the upper one.
-/
namespace MaskForge

/-! ### The order of encodings -/

theorem tailBits_eq : ∀ (bs : List Byte) (cp : Nat), tailBits cp bs = cp * 64 ^ bs.length + tailBits 0 bs
  | [], cp => by simp [tailBits]
  | b :: bs, cp => by
    show tailBits (cp * 64 + b.toNat % 64) bs = cp * 64 ^ (bs.length + 1) + tailBits (0 * 64 + b.toNat % 64) bs
    rw [tailBits_eq bs (cp * 64 + b.toNat % 64), tailBits_eq bs (0 * 64 + b.toNat % 64), Nat.pow_succ]
    ring

theorem tailBits_cons (b : Byte) (bs : List Byte) :
    tailBits 0 (b :: bs) = b.toNat % 64 * 64 ^ bs.length + tailBits 0 bs := by
  show tailBits (0 * 64 + b.toNat % 64) bs = _
  rw [tailBits_eq, Nat.zero_mul, Nat.zero_add]

theorem tailBits_lt : ∀ bs : List Byte, tailBits 0 bs < 64 ^ bs.length
  | [] => Nat.one_pos
  | b :: bs => by
    have hrest := tailBits_lt bs
    have hb : b.toNat % 64 ≤ 63 := Nat.le_of_lt_succ (Nat.mod_lt _ (by decide))
    rw [tailBits_cons, List.length_cons, Nat.pow_succ]
    nlinarith

/-- Numbers in two digits compare by the first unless it is the same. -/
theorem twoDigits_lt {x y r s n : Nat} (h : x < y) (hr : r < n) : x * n + r < y * n + s :=
  calc x * n + r < x * n + n := Nat.add_lt_add_left hr _
    _ = (x + 1) * n := (Nat.succ_mul x n).symm
    _ ≤ y * n := Nat.mul_le_mul_right n h
    _ ≤ y * n + s := Nat.le_add_right _ _

theorem IsTail.mod {b : Byte} (h : IsTail b) : b.toNat % 64 = b.toNat - 0x80 := by
  unfold IsTail at h
  omega

theorem isTail_inj {a b : Byte} (ha : IsTail a) (hb : IsTail b) (h : a.toNat % 64 = b.toNat % 64) : a = b := by
  rw [ha.mod, hb.mod] at h
  unfold IsTail at ha hb
  exact UInt8.toNat_inj.1 (by omega)

/-- The bits tell the bytes. -/
theorem tailBits_inj :
    ∀ {v w : List Byte} {p q : Nat}, v.length = w.length → (∀ b ∈ v, IsTail b) → (∀ b ∈ w, IsTail b) →
    tailBits p v = tailBits q w → p = q ∧ v = w
  | [], [], p, q, _, _, _, h => ⟨h, rfl⟩
  | a :: v, b :: w, p, q, hlen, hv, hw, h => by
    have hlen : v.length = w.length := Nat.succ.inj hlen
    obtain ⟨hbits, rfl⟩ := tailBits_inj hlen (fun x hx => hv x (List.mem_cons_of_mem _ hx))
      (fun x hx => hw x (List.mem_cons_of_mem _ hx)) (show tailBits (p * 64 + a.toNat % 64) v =
        tailBits (q * 64 + b.toNat % 64) w from h)
    have hab : a = b := isTail_inj (hv a List.mem_cons_self) (hw b List.mem_cons_self) (by omega)
    subst hab
    exact ⟨by omega, rfl⟩

/-- How many bytes a character takes. -/
theorem length_utf8Encode (c : Char) : (String.utf8EncodeChar c).length =
    if c.toNat ≤ 0x7f then 1 else if c.toNat ≤ 0x7ff then 2 else if c.toNat ≤ 0xffff then 3 else 4 := by
  have hv : c.val.toNat = c.toNat := rfl
  simp only [String.utf8EncodeChar, hv]
  by_cases h1 : c.toNat ≤ 0x7f
  · rw [if_pos h1, if_pos h1]
    rfl
  · rw [if_neg h1, if_neg h1]
    by_cases h2 : c.toNat ≤ 0x7ff
    · rw [if_pos h2, if_pos h2]
      rfl
    · rw [if_neg h2, if_neg h2]
      by_cases h3 : c.toNat ≤ 0xffff
      · rw [if_pos h3, if_pos h3]
        rfl
      · rw [if_neg h3, if_neg h3]
        rfl

theorem length_utf8Encode_mono {a b : Char} (h : a.toNat ≤ b.toNat) :
    (String.utf8EncodeChar a).length ≤ (String.utf8EncodeChar b).length := by
  rw [length_utf8Encode, length_utf8Encode]
  split_ifs <;> omega

/-- Characters between two of one length have that length. -/
theorem length_utf8Encode_between {a b c : Char}
    (hwidth : (String.utf8EncodeChar a).length = (String.utf8EncodeChar b).length)
    (hac : a.toNat ≤ c.toNat) (hcb : c.toNat ≤ b.toNat) :
    (String.utf8EncodeChar c).length = (String.utf8EncodeChar a).length :=
  Nat.le_antisymm (hwidth ▸ length_utf8Encode_mono hcb) (length_utf8Encode_mono hac)

/-- What a lead byte of some width adds to its bits. -/
def leadMark (n : Nat) : Nat := if n = 1 then 0xc0 else if n = 2 then 0xe0 else 0xf0

theorem leadMark_shape {lead : Byte} {n lo hi cp : Nat} (h : utf8LeadShape lead = some (n, lo, hi, cp)) :
    lead.toNat = leadMark n + cp := by
  rcases utf8LeadShape_some h with ⟨rfl, hlead, _⟩ | ⟨rfl, hlead, _⟩ | ⟨rfl, hlead, _⟩
  all_goals exact hlead

theorem Tails.all {lead : Byte} {n lo hi cp : Nat} (h : utf8LeadShape lead = some (n, lo, hi, cp)) {bs : List Byte}
    (hbs : Tails lo hi bs) :
    ∀ b ∈ bs, IsTail b := by
  intro b hb
  cases bs with
  | nil => cases hb
  | cons x xs =>
    rcases List.mem_cons.1 hb with rfl | hb
    · have := utf8LeadShape_some h
      have := hbs.1
      unfold IsTail
      omega
    · exact hbs.2 b hb

/-- **Past ASCII**, a character of some width is its lead byte's bits and six from each byte after it. -/
theorem utf8_parts {c : Char} (hc : 0x80 ≤ c.toNat) {n : Nat} (hn : (String.utf8EncodeChar c).length = n + 1) :
    ∃ lead bs cp,
    String.utf8EncodeChar c = lead :: bs ∧ bs.length = n ∧ (∀ b ∈ bs, IsTail b) ∧ lead.toNat = leadMark n + cp ∧
    c.toNat = tailBits cp bs := by
  obtain ⟨lead, bs, m, lo, hi, cp, henc, hshape, hlen, htails, hv⟩ := shape_of_utf8Encode hc
  have hm : m = n := by
    rw [henc, List.length_cons, hlen] at hn
    exact Nat.succ.inj hn
  subst hm
  exact ⟨lead, bs, cp, henc, hlen, htails.all hshape, leadMark_shape hshape, hv⟩

/-! ### The byte strings between two -/

/-- Whether a byte string stays between two others: next to the lower one as long as it follows it, and next
to the upper. -/
def Between : List Byte → List Byte → Bool → Bool → List Byte → Prop
  | l :: lower, u :: upper, lowerTight, upperTight, b :: w =>
    ((if lowerTight then l.toNat else 0x80) ≤ b.toNat ∧ b.toNat ≤ if upperTight then u.toNat else 0xbf) ∧
      Between lower upper (lowerTight && b == l) (upperTight && b == u) w
  | [], [], _, _, [] => True
  | _, _, _, _, _ => False

/-- **Between two strings of continuation bytes are those whose bits are.** -/
theorem between_tails :
    ∀ {lower upper w : List Byte} {lt ut : Bool}, lower.length = upper.length → (∀ b ∈ lower, IsTail b) →
    (∀ b ∈ upper, IsTail b) → (Between lower upper lt ut w ↔ w.length = lower.length ∧ (∀ b ∈ w, IsTail b) ∧
      (lt = true → tailBits 0 lower ≤ tailBits 0 w) ∧ (ut = true → tailBits 0 w ≤ tailBits 0 upper))
  | [], [], [], lt, ut, _, _, _ => by simp [Between]
  | [], [], b :: w, lt, ut, _, _, _ => by simp [Between]
  | l :: lower, u :: upper, [], lt, ut, _, _, _ => by simp [Between]
  | l :: lower, u :: upper, b :: w, lt, ut, hlen, hl, hu => by
    have hlen : lower.length = upper.length := Nat.succ.inj hlen
    have hlTail := hl l List.mem_cons_self
    have huTail := hu u List.mem_cons_self
    have hlMod := hlTail.mod
    have huMod := huTail.mod
    have hlLt := tailBits_lt lower
    have huLt := tailBits_lt upper
    unfold IsTail at hlTail huTail
    rw [Between, between_tails hlen (fun x hx => hl x (List.mem_cons_of_mem _ hx)) fun x hx =>
      hu x (List.mem_cons_of_mem _ hx)]
    constructor
    · rintro ⟨⟨hlo, hhi⟩, hwlen, hw, hlower, hupper⟩
      have hb : IsTail b := by
        unfold IsTail
        split at hlo <;> split at hhi <;> omega
      have hbMod := hb.mod
      have hwLt := tailBits_lt w
      have hall : ∀ x ∈ b :: w, IsTail x := by
        intro x hx
        rcases List.mem_cons.1 hx with rfl | hx
        · exact hb
        · exact hw x hx
      unfold IsTail at hb
      refine ⟨by rw [List.length_cons, List.length_cons, hwlen], hall, fun hlt => ?_, fun hut => ?_⟩
      · subst hlt
        rw [if_pos rfl] at hlo
        rw [tailBits_cons, tailBits_cons, hwlen]
        by_cases hbl : b = l
        · have := hlower (by simp [hbl])
          rw [hbl]
          omega
        · have hne : b.toNat ≠ l.toNat := fun h => hbl (UInt8.toNat_inj.1 h)
          exact Nat.le_of_lt (twoDigits_lt (by omega) hlLt)
      · subst hut
        rw [if_pos rfl] at hhi
        rw [tailBits_cons, tailBits_cons, hwlen, ← hlen]
        by_cases hbu : b = u
        · have := hupper (by simp [hbu])
          rw [hbu]
          omega
        · have hne : b.toNat ≠ u.toNat := fun h => hbu (UInt8.toNat_inj.1 h)
          exact Nat.le_of_lt (twoDigits_lt (by omega) (hwlen ▸ hwLt))
    · rintro ⟨hwlen, hall, hlower, hupper⟩
      have hwlen : w.length = lower.length := Nat.succ.inj hwlen
      have hb := hall b List.mem_cons_self
      have hbMod := hb.mod
      have hwLt := tailBits_lt w
      have hlo : lt = true → l.toNat ≤ b.toNat := by
        intro h
        by_contra hlt
        have hle := hlower h
        rw [tailBits_cons, tailBits_cons, hwlen] at hle
        unfold IsTail at hb
        exact absurd hle (Nat.not_le.2 (twoDigits_lt (by omega) (hwlen ▸ hwLt)))
      have hhi : ut = true → b.toNat ≤ u.toNat := by
        intro h
        by_contra hlt
        have hle := hupper h
        rw [tailBits_cons, tailBits_cons, hwlen, ← hlen] at hle
        unfold IsTail at hb
        exact absurd hle (Nat.not_le.2 (twoDigits_lt (by omega) (hlen ▸ huLt)))
      unfold IsTail at hb
      refine ⟨⟨?_, ?_⟩, hwlen, fun x hx => hall x (List.mem_cons_of_mem _ hx), fun h => ?_, fun h => ?_⟩
      · split
        · rename_i h
          exact hlo h
        · exact hb.1
      · split
        · rename_i h
          exact hhi h
        · exact hb.2
      · rw [Bool.and_eq_true, beq_iff_eq] at h
        have hle := hlower h.1
        rw [tailBits_cons, tailBits_cons, hwlen, h.2] at hle
        omega
      · rw [Bool.and_eq_true, beq_iff_eq] at h
        have hle := hupper h.1
        rw [tailBits_cons, tailBits_cons, hwlen, ← hlen, h.2] at hle
        omega

/-- **Between the encodings of two characters of one width are the encodings of the characters between them.** -/
theorem between_utf8 {a b : Char} (hwidth : (String.utf8EncodeChar a).length = (String.utf8EncodeChar b).length)
    (hab : a.toNat ≤ b.toNat) (hscalar : ∀ v, a.toNat ≤ v → v ≤ b.toNat → v.isValidChar) (w : List Byte) :
    Between (String.utf8EncodeChar a) (String.utf8EncodeChar b) true true w ↔
      ∃ c : Char, a.toNat ≤ c.toNat ∧ c.toNat ≤ b.toNat ∧ w = String.utf8EncodeChar c := by
  by_cases hascii : a.toNat < 0x80
  · have hbascii : b.toNat < 0x80 := by
      rw [length_utf8Encode, length_utf8Encode, if_pos (Nat.le_of_lt_succ hascii)] at hwidth
      by_contra hb
      split_ifs at hwidth <;> omega
    have hbyte : ∀ v : Nat, v < 0x80 → (UInt8.ofNat v).toNat = v := fun v hv => by
      rw [UInt8.toNat_ofNat', Nat.mod_eq_of_lt (by omega)]
    rw [utf8Encode_ascii hascii, utf8Encode_ascii hbascii]
    constructor
    · intro h
      match w, h with
      | [x], h =>
        obtain ⟨⟨hlo, hhi⟩, _⟩ := h
        rw [if_pos rfl, hbyte _ hascii] at hlo
        rw [if_pos rfl, hbyte _ hbascii] at hhi
        obtain ⟨c, hc⟩ := exists_char x.toNat (hscalar _ hlo hhi)
        exact ⟨c, hc ▸ hlo, hc ▸ hhi, by rw [utf8Encode_ascii (by omega), hc, UInt8.ofNat_toNat]⟩
      | [], h => exact h.elim
      | _ :: _ :: _, h => exact h.2.elim
    · rintro ⟨c, hac, hcb, rfl⟩
      rw [utf8Encode_ascii (by omega)]
      refine ⟨⟨?_, ?_⟩, trivial⟩
      · rw [if_pos rfl, hbyte _ hascii, hbyte _ (by omega)]
        exact hac
      · rw [if_pos rfl, hbyte _ hbascii, hbyte _ (by omega)]
        exact hcb
  · have hpos : ∀ c : Char, a.toNat ≤ c.toNat → c.toNat ≤ b.toNat → ∃ lead bs cp, String.utf8EncodeChar c = lead :: bs ∧
        bs.length = (String.utf8EncodeChar a).length - 1 ∧ (∀ b ∈ bs, IsTail b) ∧
        lead.toNat = leadMark ((String.utf8EncodeChar a).length - 1) + cp ∧ c.toNat = tailBits cp bs := by
      intro c hac hcb
      have hlen := length_utf8Encode_between hwidth hac hcb
      have hne : 0 < (String.utf8EncodeChar a).length := by
        rw [length_utf8Encode]
        split_ifs <;> decide
      exact utf8_parts (by omega) (by omega)
    generalize (String.utf8EncodeChar a).length - 1 = n at hpos
    obtain ⟨la, as, pa, hea, halen, hatail, halead, hav⟩ := hpos a (Nat.le_refl _) hab
    obtain ⟨lb, bs, pb, heb, hblen, hbtail, hblead, hbv⟩ := hpos b hab (Nat.le_refl _)
    have halt := tailBits_lt as
    have hblt := tailBits_lt bs
    rw [tailBits_eq] at hav hbv
    rw [hea, heb]
    constructor
    · intro h
      cases w with
      | nil => exact h.elim
      | cons x w =>
        obtain ⟨⟨hlo, hhi⟩, hrest⟩ := h
        rw [if_pos rfl] at hlo hhi
        obtain ⟨hwlen, hwtail, hlower, hupper⟩ := (between_tails (halen.trans hblen.symm) hatail hbtail).1 hrest
        have hwlt := tailBits_lt w
        obtain ⟨p, hp⟩ : ∃ p, x.toNat = leadMark n + p := ⟨x.toNat - leadMark n, by omega⟩
        have hlow : a.toNat ≤ tailBits p w := by
          rw [tailBits_eq, hav, hwlen]
          by_cases hx : x = la
          · have := hlower (by simp [hx])
            have hpa : p = pa := by rw [hx] at hp; omega
            rw [hpa]
            omega
          · have hne : x.toNat ≠ la.toNat := fun h => hx (UInt8.toNat_inj.1 h)
            exact Nat.le_of_lt (twoDigits_lt (by omega) halt)
        have hhigh : tailBits p w ≤ b.toNat := by
          rw [tailBits_eq, hbv, hblen, ← halen, ← hwlen]
          by_cases hx : x = lb
          · have := hupper (by simp [hx])
            have hpb : p = pb := by rw [hx] at hp; omega
            rw [hpb]
            omega
          · have hne : x.toNat ≠ lb.toNat := fun h => hx (UInt8.toNat_inj.1 h)
            exact Nat.le_of_lt (twoDigits_lt (by omega) hwlt)
        obtain ⟨c, hc⟩ := exists_char _ (hscalar _ hlow hhigh)
        obtain ⟨lc, cs, pc, hec, hclen, hctail, hclead, hcv⟩ := hpos c (hc ▸ hlow) (hc ▸ hhigh)
        obtain ⟨hpp, hww⟩ := tailBits_inj (by rw [hwlen, halen, hclen]) hwtail hctail (hc.symm.trans hcv)
        have hxl : x = lc := UInt8.toNat_inj.1 (by omega)
        exact ⟨c, hc ▸ hlow, hc ▸ hhigh, by rw [hec, hxl, hww]⟩
    · rintro ⟨c, hac, hcb, rfl⟩
      obtain ⟨lc, cs, pc, hec, hclen, hctail, hclead, hcv⟩ := hpos c hac hcb
      have hclt := tailBits_lt cs
      rw [tailBits_eq] at hcv
      rw [hav, hcv, halen, hclen] at hac
      rw [hbv, hcv, hblen, hclen] at hcb
      rw [halen] at halt
      rw [hblen] at hblt
      rw [hclen] at hclt
      have hpl : pa ≤ pc := by
        by_contra hlt
        exact absurd hac (Nat.not_le.2 (twoDigits_lt (Nat.not_le.1 hlt) hclt))
      have hpu : pc ≤ pb := by
        by_contra hlt
        exact absurd hcb (Nat.not_le.2 (twoDigits_lt (Nat.not_le.1 hlt) hblt))
      rw [hec]
      refine ⟨⟨by rw [if_pos rfl]; omega, by rw [if_pos rfl]; omega⟩,
        (between_tails (halen.trans hblen.symm) hatail hbtail).2 ⟨hclen.trans halen.symm, hctail, fun h => ?_,
          fun h => ?_⟩⟩
      · rw [Bool.true_and, beq_iff_eq] at h
        have hsame : pc = pa := by rw [h] at hclead; omega
        rw [hsame] at hac
        omega
      · rw [Bool.true_and, beq_iff_eq] at h
        have hsame : pc = pb := by rw [h] at hclead; omega
        rw [hsame] at hcb
        omega

/-! ### The search -/

namespace RefEngine
variable (e : RefEngine)

/-- `encoded`. -/
def encoded (value : Nat) : Option (List Byte) := (charFromU32 value).map String.utf8EncodeChar

/-- Where a walk is, and whether it follows the lower end and the upper. -/
abbrev Candidate := Nat × Bool × Bool

/-- The bytes a walk may take at a position. -/
def intervalBytes (lower upper : List Byte) (position : Nat) (c : Candidate) : List Byte :=
  let lo := if c.2.1 then lower[position]?.getD 0 else if position = 0 then lower[0]?.getD 0 else 0x80
  let hi := if c.2.2 then upper[position]?.getD 0 else if position = 0 then upper[0]?.getD 0 else 0xbf
  allBytes.filter fun byte => decide (lo.toNat ≤ byte.toNat ∧ byte.toNat ≤ hi.toNat)

/-- A byte taken, if it does not lead into DEAD. -/
def takeByte (lower upper : List Byte) (position : Nat) (c : Candidate) (next : List Candidate) (byte : Byte) :
    List Candidate :=
  let target := e.step c.1 (e.classOfByte byte)
  if e.isDead target then next
  else
    let candidate := (target, c.2.1 && byte == lower[position]?.getD 0, c.2.2 && byte == upper[position]?.getD 0)
    if next.contains candidate then next else next ++ [candidate]

/-- One position of the search. -/
def nextFrontier (lower upper : List Byte) (frontier : List Candidate) (position : Nat) : List Candidate :=
  frontier.foldl (fun next c => (intervalBytes lower upper position c).foldl (e.takeByte lower upper position c) next)
    []

def searchFrom (lower upper : List Byte) : List Nat → List Candidate → Bool
  | [], _ => true
  | position :: rest, frontier =>
    let next := e.nextFrontier lower upper frontier position
    if next.isEmpty then false else searchFrom lower upper rest next

/-- `can_consume_scalar_interval`. -/
def canConsumeScalarInterval (s start stop : Nat) : Option Bool :=
  if stop < start ∨ 0x10ffff < stop ∨ e.isDead s = true then some false
  else do
    let lower ← encoded start
    let upper ← encoded stop
    if lower.length ≠ upper.length then none
    else some (e.searchFrom lower upper (List.range lower.length) [(s, true, true)])

/-- The intervals of one width. -/
def scalarIntervals : List (Nat × Nat) :=
  [(0, 0x7f), (0x80, 0x7ff), (0x800, 0xd7ff), (0xe000, 0xffff), (0x10000, 0x10ffff)]

/-- The answer of the intervals left, where one before may have been `unknown`. -/
def anyInterval (s : Nat) : List (Nat × Nat) → Bool → Option Bool
  | [], unknown => if unknown then none else some false
  | (start, stop) :: rest, unknown => match e.canConsumeScalarInterval s start stop with
    | some true => some true
    | some false => anyInterval s rest unknown
    | none => anyInterval s rest true

/-- `can_consume_any_scalar`. -/
def canConsumeAnyScalar (s : Nat) : Option Bool := e.anyInterval s scalarIntervals false

variable {e}

theorem mem_takeBytes {lower upper : List Byte} {position : Nat} {c x : Candidate} :
    ∀ {bytes : List Byte} {next : List Candidate},
    x ∈ bytes.foldl (e.takeByte lower upper position c) next ↔ x ∈ next ∨ ∃ b ∈ bytes,
      e.isDead (e.step c.1 (e.classOfByte b)) = false ∧
        x = (e.step c.1 (e.classOfByte b), c.2.1 && b == lower[position]?.getD 0, c.2.2 && b == upper[position]?.getD 0)
  | [], next => by simp
  | b :: bytes, next => by
    rw [List.foldl_cons, mem_takeBytes]
    have hone : x ∈ e.takeByte lower upper position c next b ↔
      x ∈ next ∨ e.isDead (e.step c.1 (e.classOfByte b)) = false ∧
        x = (e.step c.1 (e.classOfByte b), c.2.1 && b == lower[position]?.getD 0,
          c.2.2 && b == upper[position]?.getD 0) := by
      unfold takeByte
      dsimp only
      by_cases hdead : e.isDead (e.step c.1 (e.classOfByte b)) = true
      · rw [if_pos hdead]
        simp [hdead]
      · rw [if_neg hdead]
        rw [Bool.not_eq_true] at hdead
        split
        · rename_i hmem
          rw [List.contains_iff_mem] at hmem
          simp only [hdead, true_and]
          refine ⟨.inl, ?_⟩
          rintro (h | rfl)
          · exact h
          · exact hmem
        · simp [hdead]
    rw [hone]
    simp only [List.mem_cons, exists_eq_or_imp, or_assoc]

theorem mem_nextFrontier {lower upper : List Byte} {position : Nat} {x : Candidate} {frontier : List Candidate} :
    x ∈ e.nextFrontier lower upper frontier position ↔ ∃ c ∈ frontier, ∃ b ∈ intervalBytes lower upper position c,
      e.isDead (e.step c.1 (e.classOfByte b)) = false ∧
        x = (e.step c.1 (e.classOfByte b), c.2.1 && b == lower[position]?.getD 0,
          c.2.2 && b == upper[position]?.getD 0) := by
  have hgen : ∀ (frontier next : List Candidate),
      x ∈ frontier.foldl (fun next c =>
        (intervalBytes lower upper position c).foldl (e.takeByte lower upper position c) next) next ↔
        x ∈ next ∨ ∃ c ∈ frontier, ∃ b ∈ intervalBytes lower upper position c,
        e.isDead (e.step c.1 (e.classOfByte b)) = false ∧
          x = (e.step c.1 (e.classOfByte b), c.2.1 && b == lower[position]?.getD 0,
            c.2.2 && b == upper[position]?.getD 0) := by
    intro frontier
    induction frontier with
    | nil => simp
    | cons c frontier ih =>
      intro next
      rw [List.foldl_cons, ih, mem_takeBytes]
      simp only [List.mem_cons, exists_eq_or_imp, or_assoc]
  rw [nextFrontier, hgen]
  simp

/-- The walks of the search: at the first position both ends are followed. -/
def Started (position : Nat) (frontier : List Candidate) : Prop :=
  ∀ c ∈ frontier, e.isDead c.1 = false ∧ (position = 0 → c.2.1 = true ∧ c.2.2 = true)

/-- **The search finds the walks along byte strings between the ends.** -/
theorem searchFrom_iff {lower upper : List Byte} (hlen : lower.length = upper.length) :
    ∀ (n position : Nat) {frontier : List Candidate},
    position + n = lower.length → frontier ≠ [] → e.Started position frontier →
      (e.searchFrom lower upper (List.range' position n) frontier = true ↔ ∃ c ∈ frontier, ∃ w,
        Between (lower.drop position) (upper.drop position) c.2.1 c.2.2 w ∧ e.isDead (e.stepBytes c.1 w) = false)
  | 0, position, frontier, hpos, hne, hstarted => by
    obtain ⟨c, hc⟩ := List.exists_mem_of_ne_nil frontier hne
    rw [List.drop_eq_nil_of_le (by omega), List.drop_eq_nil_of_le (by omega)]
    exact ⟨fun _ => ⟨c, hc, [], trivial, (hstarted c hc).1⟩, fun _ => rfl⟩
  | n + 1, position, frontier, hpos, hne, hstarted => by
    have hl : position < lower.length := by omega
    have hu : position < upper.length := by omega
    have hlget : lower[position]?.getD 0 = lower[position] := by rw [List.getElem?_eq_getElem hl]; rfl
    have huget : upper[position]?.getD 0 = upper[position] := by rw [List.getElem?_eq_getElem hu]; rfl
    have hbytes : ∀ c ∈ frontier, ∀ b, b ∈ intervalBytes lower upper position c ↔
        (if c.2.1 then lower[position].toNat else 0x80) ≤ b.toNat ∧ b.toNat ≤ if c.2.2 then upper[position].toNat
        else 0xbf := by
      intro c hc b
      unfold intervalBytes
      dsimp only
      rw [List.mem_filter, and_iff_right (mem_allBytes b), decide_eq_true_eq, hlget, huget]
      obtain ⟨_, hfirst⟩ := hstarted c hc
      by_cases h0 : position = 0
      · rw [(hfirst h0).1, (hfirst h0).2]
        exact Iff.rfl
      · rw [if_neg h0, if_neg h0, apply_ite UInt8.toNat, apply_ite UInt8.toNat]
        exact Iff.rfl
    have hwalk : (∃ c ∈ frontier, ∃ w, Between (lower.drop position) (upper.drop position) c.2.1 c.2.2 w ∧
      e.isDead (e.stepBytes c.1 w) = false) ↔
        ∃ c ∈ e.nextFrontier lower upper frontier position, ∃ w,
          Between (lower.drop (position + 1)) (upper.drop (position + 1)) c.2.1 c.2.2 w ∧ e.isDead (e.stepBytes c.1 w) =
          false := by
      rw [List.drop_eq_getElem_cons hl, List.drop_eq_getElem_cons hu]
      constructor
      · rintro ⟨c, hc, w, hw, halive⟩
        cases w with
        | nil => exact hw.elim
        | cons b w =>
          have htarget : e.isDead (e.step c.1 (e.classOfByte b)) = false := by
            rw [← Bool.not_eq_true]
            intro hdead
            rw [isDead, Bool.or_eq_true, beq_iff_eq, decide_eq_true_eq] at hdead
            have hzero : e.step c.1 (e.classOfByte b) = dead := by
              by_contra hne
              exact absurd (hdead.resolve_left hne) (Nat.not_le.2 (e.step_lt hne))
            rw [show e.stepBytes c.1 (b :: w) = e.stepBytes (e.step c.1 (e.classOfByte b)) w from rfl, hzero,
              e.stepBytes_dead] at halive
            cases halive
          refine ⟨_, mem_nextFrontier.2 ⟨c, hc, b, (hbytes c hc b).2 hw.1, htarget, rfl⟩, w, ?_, halive⟩
          dsimp only
          rw [hlget, huget]
          exact hw.2
      · rintro ⟨c', hc', w, hw, halive⟩
        obtain ⟨c, hc, b, hb, _, rfl⟩ := mem_nextFrontier.1 hc'
        rw [hlget, huget] at hw
        exact ⟨c, hc, b :: w, ⟨(hbytes c hc b).1 hb, hw⟩, halive⟩
    rw [List.range'_succ, searchFrom, hwalk]
    by_cases hempty : e.nextFrontier lower upper frontier position = []
    · rw [hempty]
      simp
    · rw [if_neg (by rwa [List.isEmpty_iff])]
      refine searchFrom_iff hlen n (position + 1) (by omega) hempty fun c' hc' => ?_
      obtain ⟨c, _, b, _, halive, rfl⟩ := mem_nextFrontier.1 hc'
      exact ⟨halive, fun h => absurd h (Nat.succ_ne_zero _)⟩

theorem consumeToken_isSome {s : Nat} (hs : e.isDead s = false) (w : List Byte) :
    (e.consumeToken s w).isSome = true ↔ e.isDead (e.stepBytes s w) = false := by
  have halive := hs
  rw [isDead, Bool.or_eq_false_iff, beq_eq_false_iff_ne, decide_eq_false_iff_not, Nat.not_le] at hs
  rw [e.consumeToken_eq w s hs.1]
  by_cases hdead : e.stepBytes s w = dead
  · rw [if_pos hdead, hdead]
    simp [isDead]
  · rw [if_neg hdead]
    have hlt : e.stepBytes s w < e.stateCount := by
      rcases List.eq_nil_or_concat w with rfl | ⟨w, b, rfl⟩
      · exact hs.2
      · rw [List.concat_eq_append, e.stepBytes_append] at hdead ⊢
        exact e.step_lt hdead
    simp [isDead, hdead, hlt]

/-- From DEAD or no state no byte is consumed. -/
theorem consumeToken_out {s : Nat} (hs : e.isDead s = true) {w : List Byte} (hw : w ≠ []) :
    e.consumeToken s w = none := by
  rw [isDead, Bool.or_eq_true, beq_iff_eq, decide_eq_true_eq] at hs
  rcases hs with rfl | hs
  · exact e.consumeToken_dead hw
  · cases w with
    | nil => exact absurd rfl hw
    | cons b w => rw [consumeToken, e.step_out_of_range _ hs, if_pos rfl, ite_self]

variable (e)

/-- Whether some character between two is consumable. -/
def ConsumesScalar (s start stop : Nat) : Prop :=
  ∃ c : Char, start ≤ c.toNat ∧ c.toNat ≤ stop ∧ (e.consumeToken s (String.utf8EncodeChar c)).isSome = true

variable {e}

/-- **An interval of one width is answered exactly.** -/
theorem canConsumeScalarInterval_some (s : Nat) {a b : Char}
    (hwidth : (String.utf8EncodeChar a).length = (String.utf8EncodeChar b).length)
    (hscalar : ∀ v, a.toNat ≤ v → v ≤ b.toNat → v.isValidChar) :
    ∃ r, e.canConsumeScalarInterval s a.toNat b.toNat = some r ∧ (r = true ↔ e.ConsumesScalar s a.toNat b.toNat) := by
  have hmax : ∀ c : Char, c.toNat ≤ 0x10ffff := by
    intro c
    have hvalid : c.toNat.isValidChar := c.valid
    unfold Nat.isValidChar at hvalid
    omega
  have hnonempty : ∀ c : Char, String.utf8EncodeChar c ≠ [] := by
    intro c h
    have hlen := length_utf8Encode c
    rw [h, List.length_nil] at hlen
    split_ifs at hlen
  unfold canConsumeScalarInterval
  by_cases hout : b.toNat < a.toNat ∨ 0x10ffff < b.toNat ∨ e.isDead s = true
  · rw [if_pos hout]
    refine ⟨false, rfl, fun h => absurd h Bool.false_ne_true, ?_⟩
    rintro ⟨c, hac, hcb, hsome⟩
    rcases hout with hlt | hlt | hdead
    · omega
    · exact absurd hlt (Nat.not_lt.2 (hmax b))
    · rw [consumeToken_out hdead (hnonempty c)] at hsome
      cases hsome
  · rw [if_neg hout]
    rw [not_or, not_or, Nat.not_lt, Bool.not_eq_true] at hout
    obtain ⟨hab, _, halive⟩ := hout
    simp only [encoded, charFromU32_toNat, Option.map_some, Option.bind_eq_bind, Option.bind_some]
    rw [if_neg (not_not.2 hwidth)]
    refine ⟨_, rfl, ?_⟩
    have hstarted : e.Started 0 [(s, true, true)] := by
      intro c hc
      rw [List.mem_singleton.1 hc]
      exact ⟨halive, fun _ => ⟨rfl, rfl⟩⟩
    rw [List.range_eq_range', searchFrom_iff hwidth _ 0 (Nat.zero_add _) (List.cons_ne_nil _ _) hstarted]
    simp only [List.drop_zero, List.mem_singleton, exists_eq_left, between_utf8 hwidth hab hscalar]
    constructor
    · rintro ⟨w, ⟨c, hac, hcb, rfl⟩, hw⟩
      exact ⟨c, hac, hcb, (consumeToken_isSome halive _).2 hw⟩
    · rintro ⟨c, hac, hcb, hsome⟩
      exact ⟨_, ⟨c, hac, hcb, rfl⟩, (consumeToken_isSome halive _).1 hsome⟩

/-- **The intervals left answer for their characters.** -/
theorem anyInterval_iff (s : Nat) : ∀ {intervals : List (Nat × Nat)},
    (∀ p ∈ intervals, ∃ r, e.canConsumeScalarInterval s p.1 p.2 = some r ∧ (r = true ↔ e.ConsumesScalar s p.1 p.2)) →
      ∃ r, e.anyInterval s intervals false = some r ∧ (r = true ↔ ∃ p ∈ intervals, e.ConsumesScalar s p.1 p.2)
  | [], _ => ⟨false, rfl, by simp⟩
  | (start, stop) :: rest, h => by
    obtain ⟨r, hr, hiff⟩ := h _ List.mem_cons_self
    rw [anyInterval, hr]
    cases r with
    | true => exact ⟨true, rfl, fun _ => ⟨_, List.mem_cons_self, hiff.1 rfl⟩, fun _ => rfl⟩
    | false =>
      obtain ⟨r', hr', hiff'⟩ := anyInterval_iff s fun p hp => h p (List.mem_cons_of_mem _ hp)
      refine ⟨r', hr', hiff'.trans ?_⟩
      simp only [List.mem_cons, exists_eq_or_imp]
      exact ⟨.inr, fun h => h.resolve_left fun h => Bool.false_ne_true (hiff.2 h)⟩

/-- **The query is exact**: on an interval of one width without surrogates, and over all characters. -/
theorem canConsume_exact (e : RefEngine) (s : Nat) :
    (∀ a b : Char, (String.utf8EncodeChar a).length = (String.utf8EncodeChar b).length →
      (∀ v, a.toNat ≤ v → v ≤ b.toNat → v.isValidChar) → ∃ r, e.canConsumeScalarInterval s a.toNat b.toNat = some r ∧
        (r = true ↔ ∃ c : Char, a.toNat ≤ c.toNat ∧ c.toNat ≤ b.toNat ∧
          (e.consumeToken s (String.utf8EncodeChar c)).isSome = true)) ∧
    (e.canConsumeAnyScalar s = some true ↔ ∃ c : Char, (e.consumeToken s (String.utf8EncodeChar c)).isSome = true) := by
  refine ⟨fun a b hwidth hscalar => canConsumeScalarInterval_some s hwidth hscalar, ?_⟩
  have hall : ∀ p ∈ scalarIntervals, ∃ r, e.canConsumeScalarInterval s p.1 p.2 = some r ∧
    (r = true ↔ e.ConsumesScalar s p.1 p.2) := by
    intro p hp
    have hends : ∃ a b : Char, p = (a.toNat, b.toNat) ∧ (String.utf8EncodeChar a).length =
      (String.utf8EncodeChar b).length ∧
        ∀ v, a.toNat ≤ v → v ≤ b.toNat → v.isValidChar := by
      have hone : ∀ x y : Nat, x.isValidChar → y.isValidChar → (y ≤ 0xd7ff ∨ 0xe000 ≤ x) →
          (if x ≤ 0x7f then 1 else if x ≤ 0x7ff then 2 else if x ≤ 0xffff then 3 else 4) =
            (if y ≤ 0x7f then 1 else if y ≤ 0x7ff then 2 else if y ≤ 0xffff then 3 else 4) → p = (x, y) →
          ∃ a b : Char, p = (a.toNat, b.toNat) ∧ (String.utf8EncodeChar a).length = (String.utf8EncodeChar b).length ∧
            ∀ v, a.toNat ≤ v → v ≤ b.toNat → v.isValidChar := by
        intro x y hx hy hside hwidth hp
        obtain ⟨a, rfl⟩ := exists_char x hx
        obtain ⟨b, rfl⟩ := exists_char y hy
        refine ⟨a, b, hp, by rw [length_utf8Encode, length_utf8Encode, hwidth], fun v hv hv' => ?_⟩
        unfold Nat.isValidChar at *
        omega
      simp only [scalarIntervals, List.mem_cons, List.not_mem_nil, or_false] at hp
      rcases hp with h | h | h | h | h
      all_goals exact hone _ _ (by decide) (by decide) (by decide) (by decide) h
    obtain ⟨a, b, rfl, hwidth, hscalar⟩ := hends
    exact canConsumeScalarInterval_some s hwidth hscalar
  obtain ⟨r, hr, hiff⟩ := anyInterval_iff s hall
  rw [canConsumeAnyScalar, hr, Option.some.injEq, hiff]
  constructor
  · rintro ⟨_, _, c, _, _, hsome⟩
    exact ⟨c, hsome⟩
  · rintro ⟨c, hsome⟩
    have hvalid : c.toNat.isValidChar := c.valid
    unfold Nat.isValidChar at hvalid
    have hin : ∃ p ∈ scalarIntervals, p.1 ≤ c.toNat ∧ c.toNat ≤ p.2 := by
      by_cases h1 : c.toNat ≤ 0x7f
      · exact ⟨(0, 0x7f), by simp [scalarIntervals], Nat.zero_le _, h1⟩
      · by_cases h2 : c.toNat ≤ 0x7ff
        · exact ⟨(0x80, 0x7ff), by simp [scalarIntervals], by omega, h2⟩
        · by_cases h3 : c.toNat ≤ 0xffff
          · by_cases h4 : c.toNat ≤ 0xd7ff
            · exact ⟨(0x800, 0xd7ff), by simp [scalarIntervals], by omega, h4⟩
            · exact ⟨(0xe000, 0xffff), by simp [scalarIntervals], by omega, h3⟩
          · exact ⟨(0x10000, 0x10ffff), by simp [scalarIntervals], by omega, by omega⟩
    obtain ⟨p, hp, hlo, hhi⟩ := hin
    exact ⟨p, hp, c, hlo, hhi, hsome⟩

/-- The engine of the word `a` consumes a character from `a` to `z`. -/
theorem canConsume_exact_letter : (byteEngine 0x61).canConsumeScalarInterval 1 0x61 0x7a = some true := by
  have hscalar : ∀ v, 'a'.toNat ≤ v → v ≤ 'z'.toNat → v.isValidChar := by
    intro v _ hv
    have hz : v ≤ 0x7a := hv
    exact .inl (by omega)
  obtain ⟨r, hr, hiff⟩ := (canConsume_exact (byteEngine 0x61) 1).1 'a' 'z' rfl hscalar
  have hr : (byteEngine 0x61).canConsumeScalarInterval 1 0x61 0x7a = some r := hr
  rw [hr, hiff.2 ⟨'a', by decide, by decide, by decide⟩]

end RefEngine

end MaskForge
