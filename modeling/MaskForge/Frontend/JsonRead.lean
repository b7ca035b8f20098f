import MaskForge.Frontend.JsonParser
/-!
# JsonRead — what the schema parser reads

Each function of the parser reads a piece of the text that the grammar gives it, and reads every such piece: one lemma
for either direction, up to the whole value.
-/
namespace MaskForge
namespace JsonParser

open Decimal (AllDigits IsDigit Numeral Positive)
open NumberForm (NumberText)

variable {bytes : List Byte}

/-! ### Pieces of the text -/

/-- Some bytes stand at a position. -/
def Stands (bytes : List Byte) (pos : Nat) (w : List Byte) : Prop := w <+: bytes.drop pos

theorem stands_nil (pos : Nat) : Stands bytes pos [] := List.nil_prefix

theorem stands_cons {pos : Nat} {b : Byte} {w : List Byte} :
    Stands bytes pos (b :: w) ↔ bytes[pos]? = some b ∧ Stands bytes (pos + 1) w := by
  unfold Stands
  by_cases hpos : pos < bytes.length
  · rw [List.drop_eq_getElem_cons hpos, List.cons_prefix_cons, List.getElem?_eq_getElem hpos,
      Option.some.injEq, eq_comm]
  · rw [List.drop_eq_nil_of_le (by omega), List.prefix_nil, List.getElem?_eq_none (by omega)]
    simp

theorem stands_append {pos : Nat} {u v : List Byte} :
    Stands bytes pos (u ++ v) ↔ Stands bytes pos u ∧ Stands bytes (pos + u.length) v := by
  induction u generalizing pos with
  | nil => simp [stands_nil]
  | cons b u ih =>
    rw [List.cons_append, stands_cons, stands_cons, ih, and_assoc, List.length_cons, show pos + 1 + u.length = pos +
      (u.length + 1) by omega]

theorem Stands.length_le {pos : Nat} {w : List Byte} (h : Stands bytes pos w) (hpos : pos ≤ bytes.length) :
    pos + w.length ≤ bytes.length := by
  have hle := List.IsPrefix.length_le h
  rw [List.length_drop] at hle
  omega

theorem Stands.take {pos : Nat} {w : List Byte} (h : Stands bytes pos w) : (bytes.drop pos).take w.length = w :=
  (List.prefix_iff_eq_take.1 h).symm

theorem stands_take {pos n : Nat} : Stands bytes pos ((bytes.drop pos).take n) := List.take_prefix _ _

/-- The bytes of a kind from a position on are all there are when another byte follows. -/
theorem takeWhile_stands {p : Byte → Bool} {pos : Nat} {w : List Byte} (h : Stands bytes pos w)
    (hw : ∀ b ∈ w, p b = true)
    (hend : ∀ b, bytes[pos + w.length]? = some b → p b = false) : (bytes.drop pos).takeWhile p = w := by
  obtain ⟨rest, hrest⟩ := h
  have hhead : bytes[pos + w.length]? = rest.head? := by
    rw [← List.getElem?_drop, ← hrest, List.getElem?_append_right (Nat.le_refl _), Nat.sub_self, List.head?_eq_getElem?]
  rw [← hrest, List.takeWhile_append_of_pos hw]
  cases rest with
  | nil => rw [List.takeWhile_nil, List.append_nil]
  | cons b rest => rw [List.takeWhile_cons, hend b hhead, if_neg (by decide), List.append_nil]

theorem takeWhile_end {p : Byte → Bool} {pos : Nat} {b : Byte}
    (h : bytes[pos + ((bytes.drop pos).takeWhile p).length]? = some b) : p b = false := by
  have hsplit := List.takeWhile_append_dropWhile (p := p) (l := bytes.drop pos)
  rw [← List.getElem?_drop, ← hsplit, List.getElem?_append_right (by simp), List.takeWhile_append_dropWhile,
    Nat.sub_self] at h
  have hne : (bytes.drop pos).dropWhile p ≠ [] := fun hnil => by
    rw [hnil] at h
    cases h
  have hhead := List.head_dropWhile_not p (by exact hne)
  rw [← List.head?_eq_getElem?, List.head?_eq_some_head hne] at h
  rw [← Option.some.inj h]
  simpa using hhead

/-! ### White space and digits -/

theorem skipWs_spec (bytes : List Byte) (pos : Nat) :
    ∃ u, Whitespace u ∧ Stands bytes pos u ∧ skipWs bytes pos = pos + u.length ∧
    ∀ b, bytes[pos + u.length]? = some b → ¬ IsWhitespace b := by
  refine ⟨_, fun b hb => ?_, List.takeWhile_prefix _, rfl, fun b hb => ?_⟩
  · have hws := List.mem_takeWhile_imp hb
    exact of_decide_eq_true hws
  · exact of_decide_eq_false (takeWhile_end hb)

theorem skipWs_eq {pos : Nat} {u : List Byte} (hu : Whitespace u) (h : Stands bytes pos u)
    (hend : ∀ b, bytes[pos + u.length]? = some b → ¬ IsWhitespace b) : skipWs bytes pos = pos + u.length := by
  rw [skipWs, takeWhile_stands h (fun b hb => decide_eq_true (hu b hb)) fun b hb => decide_eq_false (hend b hb)]

theorem digits_spec {pos pos' : Nat} (h : digits bytes pos = .ok pos') :
    ∃ ds, ds ≠ [] ∧ AllDigits ds ∧ Stands bytes pos ds ∧
    pos' = pos + ds.length := by
  unfold digits at h
  dsimp only at h
  split at h
  · cases h
  · rename_i hne
    cases h
    refine ⟨_, fun hnil => hne ?_, fun b hb => ?_, List.takeWhile_prefix _, rfl⟩
    · rw [hnil]
      rfl
    · have hdigit := List.mem_takeWhile_imp hb
      exact of_decide_eq_true hdigit

theorem digits_eq {pos : Nat} {ds : List Byte} (hne : ds ≠ []) (hds : AllDigits ds) (h : Stands bytes pos ds)
    (hend : ∀ b, bytes[pos + ds.length]? = some b → ¬ IsDigit b) : digits bytes pos = .ok (pos + ds.length) := by
  have hpos := List.length_pos_iff.2 hne
  rw [digits, takeWhile_stands h (fun b hb => decide_eq_true (hds b hb)) fun b hb => decide_eq_false (hend b hb)]
  exact if_neg (by omega)

/-! ### Numbers -/

/-- What may follow a value: nothing, white space, a comma or a closing bracket. -/
def Ends (bytes : List Byte) (pos : Nat) : Prop :=
  ∀ b, bytes[pos]? = some b → IsWhitespace b ∨ b = 0x2c ∨ b = 0x5d ∨ b = 0x7d

theorem strFromUtf8_ascii {w : List Byte} (h : ∀ b ∈ w, b.toNat < 0x80) : ∃ s, strFromUtf8 w = some s := by
  refine ⟨w.map fun b => Char.ofNat b.toNat, (strFromUtf8_iff _ _).2 ?_⟩
  induction w with
  | nil => rfl
  | cons b w ih =>
    rw [List.forall_mem_cons] at h
    have hvalid : b.toNat.isValidChar := by
      unfold Nat.isValidChar
      omega
    have hchar : (Char.ofNat b.toNat).toNat = b.toNat := charFromU32_some (if_pos hvalid)
    rw [List.map_cons, List.flatMap_cons, utf8Encode_ascii (by omega), hchar, UInt8.ofNat_toNat, ← ih h.2]
    rfl

theorem text_ascii {t : NumberText} (ht : t.Json) : ∀ b ∈ t.text, b.toNat < 0x80 := by
  have hdigit : ∀ {w : List Byte}, AllDigits w → ∀ b ∈ w, b.toNat < 0x80 := fun hw b hb => by
    have := (hw b hb).2
    omega
  intro b hb
  simp only [NumberText.text, List.mem_append] at hb
  rcases hb with (hb | hb | hb) | hb
  · split at hb
    · rw [List.mem_singleton.1 hb]
      decide
    · cases hb
  · exact hdigit ht.integer.2 b hb
  · cases hf : t.fraction with
    | none =>
      rw [hf] at hb
      cases hb
    | some f =>
      rw [hf, Option.elim_some, List.mem_cons] at hb
      rcases hb with rfl | hb
      · decide
      · exact hdigit (ht.fraction f hf).2 b hb
  · cases he : t.exponent with
    | none =>
      rw [he] at hb
      cases hb
    | some e =>
      obtain ⟨mark, sign, ds⟩ := e
      obtain ⟨hmark, hsign, _, hds⟩ := ht.exponent _ _ _ he
      rw [he, Option.elim_some, List.mem_cons, List.mem_append] at hb
      rcases hb with rfl | hb | hb
      · rcases hmark with rfl | rfl <;> decide
      · rcases hsign with rfl | rfl | rfl
        · cases hb
        · rw [List.mem_singleton.1 hb]
          decide
        · rw [List.mem_singleton.1 hb]
          decide
      · exact hdigit hds b hb

theorem skipIf_spec (bytes : List Byte) (p : Byte → Bool) (pos : Nat) :
    ∃ w, Stands bytes pos w ∧ skipIf bytes p pos = pos + w.length ∧
    (w = [] ∨ ∃ b, p b = true ∧ w = [b]) := by
  unfold skipIf
  split
  · rename_i h
    obtain ⟨b, hb, hp⟩ := Option.any_eq_true _ _ |>.1 h
    exact ⟨[b], stands_cons.2 ⟨hb, stands_nil _⟩, rfl, .inr ⟨b, hp, rfl⟩⟩
  · exact ⟨[], stands_nil _, rfl, .inl rfl⟩

theorem skipIf_eq {p : Byte → Bool} {pos : Nat} {b : Byte} (h : bytes[pos]? = some b) :
    skipIf bytes p pos = if p b then pos + 1 else pos := by
  rw [skipIf, h]
  rfl

theorem integerPart_spec {pos pos' : Nat} (h : integerPart bytes pos = .ok pos') :
    ∃ ds, Numeral ds ∧ Stands bytes pos ds ∧ pos' = pos + ds.length := by
  unfold integerPart at h
  split at h
  · rename_i b hb
    split at h
    · rename_i hzero
      cases h
      rw [hzero] at hb
      exact ⟨[0x30], .inl rfl, stands_cons.2 ⟨hb, stands_nil _⟩, rfl⟩
    · split at h
      · rename_i hzero _
        obtain ⟨ds, hne, hds, hstands, rfl⟩ := digits_spec h
        obtain ⟨c, rest, rfl⟩ := List.exists_cons_of_ne_nil hne
        have hc := (stands_cons.1 hstands).1
        rw [hb] at hc
        cases hc
        exact ⟨_, .inr ⟨hds, b, rest, rfl, hzero⟩, hstands, rfl⟩
      · cases h
  · cases h

theorem integerPart_eq {pos : Nat} {ds : List Byte} (hds : Numeral ds) (h : Stands bytes pos ds)
    (hend : ∀ b, bytes[pos + ds.length]? = some b → ¬ IsDigit b) : integerPart bytes pos = .ok (pos + ds.length) := by
  rcases hds with rfl | ⟨hall, b, rest, rfl, hzero⟩
  · rw [integerPart, (stands_cons.1 h).1]
    rfl
  · have hdigit := hall.head
    have hdigits := digits_eq (List.cons_ne_nil b rest) hall h hend
    have hnot : b.toNat ≠ 0x30 := fun hb => hzero (UInt8.toNat_inj.1 hb)
    unfold IsDigit at hdigit
    rw [integerPart, (stands_cons.1 h).1]
    dsimp only
    rw [if_neg hzero, if_pos (by omega), hdigits]

theorem fractionPart_spec {pos pos' : Nat} (h : fractionPart bytes pos = .ok pos') : ∃ f : Option (List Byte),
    (∀ g, f = some g → g ≠ [] ∧ AllDigits g) ∧ Stands bytes pos (f.elim [] fun g => 0x2e :: g) ∧
      pos' = pos + (f.elim [] fun g => 0x2e :: g).length := by
  unfold fractionPart at h
  split at h
  · rename_i hb
    obtain ⟨ds, hne, hds, hstands, rfl⟩ := digits_spec h
    refine ⟨some ds, fun g hg => ?_, stands_cons.2 ⟨hb, hstands⟩, ?_⟩
    · cases hg
      exact ⟨hne, hds⟩
    · rw [Option.elim_some, List.length_cons]
      omega
  · cases h
    exact ⟨none, fun g hg => (by cases hg), stands_nil _, rfl⟩

theorem fractionPart_eq {pos : Nat} {f : Option (List Byte)} (hf : ∀ g, f = some g → g ≠ [] ∧ AllDigits g)
    (h : Stands bytes pos (f.elim [] fun g => 0x2e :: g))
    (hend : ∀ b, bytes[pos + (f.elim [] fun g => 0x2e :: g).length]? = some b → ¬ IsDigit b ∧ b ≠ 0x2e) :
    fractionPart bytes pos = .ok (pos + (f.elim [] fun g => 0x2e :: g).length) := by
  unfold fractionPart
  cases f with
  | none => exact if_neg fun hb => (hend _ hb).2 rfl
  | some g =>
    obtain ⟨hne, hds⟩ := hf g rfl
    obtain ⟨hb, hstands⟩ := stands_cons.1 h
    have hlen : pos + (0x2e :: g).length = pos + 1 + g.length := by
      rw [List.length_cons]
      omega
    rw [Option.elim_some, hlen] at hend ⊢
    rw [if_pos hb, digits_eq hne hds hstands fun b hb => (hend b hb).1]

theorem exponentPart_spec {pos pos' : Nat} (h : exponentPart bytes pos = .ok pos') :
    ∃ e : Option (Byte × List Byte × List Byte),
    (∀ mark sign ds, e = some (mark, sign, ds) → (mark = 0x65 ∨ mark = 0x45) ∧
      (sign = [] ∨ sign = [0x2d] ∨ sign = [0x2b]) ∧
      ds ≠ [] ∧ AllDigits ds) ∧ Stands bytes pos (e.elim [] fun e => e.1 :: (e.2.1 ++ e.2.2)) ∧
      pos' = pos + (e.elim [] fun e => e.1 :: (e.2.1 ++ e.2.2)).length := by
  unfold exponentPart at h
  split at h
  · rename_i hmark
    obtain ⟨mark, hb, hmark⟩ := Option.any_eq_true _ _ |>.1 hmark
    obtain ⟨sign, hsign, hskip, hkind⟩ := skipIf_spec bytes (fun b => decide (b = 0x2b ∨ b = 0x2d)) (pos + 1)
    rw [hskip] at h
    obtain ⟨ds, hne, hds, hstands, rfl⟩ := digits_spec h
    refine ⟨some (mark, sign, ds), fun m s d hm => ?_, stands_cons.2 ⟨hb, stands_append.2 ⟨hsign, hstands⟩⟩, ?_⟩
    · cases hm
      refine ⟨of_decide_eq_true hmark, ?_, hne, hds⟩
      rcases hkind with rfl | ⟨b, hb, rfl⟩
      · exact .inl rfl
      · rcases of_decide_eq_true hb with rfl | rfl
        · exact .inr (.inr rfl)
        · exact .inr (.inl rfl)
    · simp only [Option.elim_some, List.length_cons, List.length_append]
      omega
  · cases h
    exact ⟨none, fun m s d hm => (by cases hm), stands_nil _, rfl⟩

theorem exponentPart_eq {pos : Nat} {e : Option (Byte × List Byte × List Byte)}
    (he : ∀ mark sign ds, e = some (mark, sign, ds) → (mark = 0x65 ∨ mark = 0x45) ∧
      (sign = [] ∨ sign = [0x2d] ∨ sign = [0x2b]) ∧
      ds ≠ [] ∧ AllDigits ds) (h : Stands bytes pos (e.elim [] fun e => e.1 :: (e.2.1 ++ e.2.2)))
    (hend : ∀ b, bytes[pos + (e.elim [] fun e => e.1 :: (e.2.1 ++ e.2.2)).length]? = some b → ¬ IsDigit b ∧ b ≠ 0x65 ∧
      b ≠ 0x45) :
    exponentPart bytes pos = .ok (pos + (e.elim [] fun e => e.1 :: (e.2.1 ++ e.2.2)).length) := by
  unfold exponentPart
  cases e with
  | none =>
    refine if_neg fun hany => ?_
    obtain ⟨b, hb, hmark⟩ := Option.any_eq_true _ _ |>.1 hany
    obtain ⟨_, hlower, hupper⟩ := hend b hb
    exact (of_decide_eq_true hmark).elim hlower hupper
  | some e =>
    obtain ⟨mark, sign, ds⟩ := e
    obtain ⟨hmark, hsign, hne, hds⟩ := he _ _ _ rfl
    simp only [Option.elim_some] at h
    obtain ⟨hb, hrest⟩ := stands_cons.1 h
    obtain ⟨hsignStands, hdsStands⟩ := stands_append.1 hrest
    have hlen : pos + (mark :: (sign ++ ds)).length = pos + 1 + sign.length + ds.length := by
      rw [List.length_cons, List.length_append]
      omega
    have hskip : skipIf bytes (fun b => decide (b = 0x2b ∨ b = 0x2d)) (pos + 1) = pos + 1 + sign.length := by
      rcases hsign with rfl | rfl | rfl
      · obtain ⟨d, rest, rfl⟩ := List.exists_cons_of_ne_nil hne
        have hdigit := hds.head
        have hd : bytes[pos + 1]? = some d := (stands_cons.1 hdsStands).1
        rw [skipIf_eq hd, if_neg]
        · rfl
        · intro h
          rcases of_decide_eq_true h with rfl | rfl
          · exact absurd hdigit (by decide)
          · exact absurd hdigit (by decide)
      · rw [skipIf_eq (stands_cons.1 hsignStands).1]
        rfl
      · rw [skipIf_eq (stands_cons.1 hsignStands).1]
        rfl
    rw [Option.elim_some, hlen] at hend ⊢
    have hany : (bytes[pos]?).any (fun b => decide (b = 0x65 ∨ b = 0x45)) = true := by
      rw [hb]
      exact decide_eq_true hmark
    rw [if_pos hany, hskip, digits_eq hne hds hdsStands fun b hb => (hend b hb).1]

/-- **A number that is read is one of the grammar, by its token.** -/
theorem number_spec {start pos' : Nat} {a : Ast} (h : number bytes start = .ok (a, pos')) :
    ∃ t : NumberText, t.Json ∧ a = .num t.text ∧ Stands bytes start t.text ∧ pos' = start + t.text.length := by
  obtain ⟨sign, hsign, hskip, hminus⟩ := skipIf_spec bytes (fun b => decide (b = 0x2d)) start
  rw [number, hskip] at h
  obtain ⟨p₁, hinteger, h⟩ := bind_ok h
  obtain ⟨p₂, hfraction, h⟩ := bind_ok h
  obtain ⟨p₃, hexponent, h⟩ := bind_ok h
  obtain ⟨integer, hnumeral, hstands₁, rfl⟩ := integerPart_spec hinteger
  obtain ⟨fraction, hf, hstands₂, rfl⟩ := fractionPart_spec hfraction
  obtain ⟨exponent, he, hstands₃, rfl⟩ := exponentPart_spec hexponent
  have hnegative : (if decide (sign ≠ []) then [0x2d] else []) = sign := by
    rcases hminus with rfl | ⟨b, hb, rfl⟩
    · rfl
    · rw [of_decide_eq_true hb]
      rfl
  have htext : (⟨decide (sign ≠ []), integer, fraction, exponent⟩ : NumberText).text =
      sign ++ (integer ++ fraction.elim [] fun g => 0x2e :: g) ++ exponent.elim [] fun e =>
        e.1 :: (e.2.1 ++ e.2.2) := by
    rw [NumberText.text, hnegative]
  have hjson : (⟨decide (sign ≠ []), integer, fraction, exponent⟩ : NumberText).Json := by
    refine ⟨⟨⟨?_, hnumeral.digits⟩, hf, he⟩, hnumeral⟩
    obtain ⟨b, u, hb⟩ := hnumeral.cons
    rw [hb]
    exact List.cons_ne_nil b u
  have hstands : Stands bytes start (⟨decide (sign ≠ []), integer, fraction, exponent⟩ : NumberText).text := by
    rw [htext]
    refine stands_append.2 ⟨stands_append.2 ⟨hsign, stands_append.2 ⟨hstands₁, hstands₂⟩⟩, ?_⟩
    rw [List.length_append, List.length_append, ← Nat.add_assoc, ← Nat.add_assoc]
    exact hstands₃
  have hlen : start + (⟨decide (sign ≠ []), integer, fraction, exponent⟩ : NumberText).text.length =
      start + sign.length + integer.length + (fraction.elim [] fun g => 0x2e :: g).length +
        (exponent.elim [] fun e => e.1 :: (e.2.1 ++ e.2.2)).length := by
    rw [htext]
    simp only [List.length_append]
    omega
  rw [← hlen, Nat.add_sub_cancel_left, hstands.take] at h
  split at h
  · cases h
  · dsimp only at h
    split at h
    · cases h
      exact ⟨_, hjson, rfl, hstands, rfl⟩
    · cases h

/-- What comes next is the first byte of what stands there, or what comes behind it. -/
theorem next_of_stands {p : Byte → Prop} {pos : Nat} {w : List Byte} (h : Stands bytes pos w)
    (hhead : ∀ b, w.head? = some b → p b)
    (hrest : ∀ b, bytes[pos + w.length]? = some b → p b) : ∀ b, bytes[pos]? = some b → p b := by
  intro b hb
  cases w with
  | nil => exact hrest b hb
  | cons c w =>
    rw [(stands_cons.1 h).1] at hb
    exact hhead b hb

theorem Ends.not_number {pos : Nat} (h : Ends bytes pos) {b : Byte} (hb : bytes[pos]? = some b) :
    ¬ IsDigit b ∧ b ≠ 0x2e ∧ b ≠ 0x65 ∧ b ≠ 0x45 := by
  rcases h b hb with (rfl | rfl | rfl | rfl) | rfl | rfl | rfl <;> decide

/-- **A number of the grammar is read where it ends.** -/
theorem number_eq {start : Nat} {t : NumberText} (ht : t.Json) (h : Stands bytes start t.text)
    (hstart : start ≤ bytes.length)
    (hend : Ends bytes (start + t.text.length)) : number bytes start = .ok (.num t.text, start + t.text.length) := by
  have hbound := h.length_le hstart
  have htake := h.take
  obtain ⟨s, hs⟩ := strFromUtf8_ascii (text_ascii ht)
  generalize htext : t.text = text at *
  rw [NumberText.text] at htext
  generalize hsign : (if t.negative then [0x2d] else [] : List Byte) = sign at htext
  generalize hf : (t.fraction.elim [] fun g => 0x2e :: g : List Byte) = f at htext
  generalize he : (t.exponent.elim [] fun e => e.1 :: (e.2.1 ++ e.2.2) : List Byte) = e at htext
  have hlen : start + text.length = start + sign.length + t.integer.length + f.length + e.length := by
    rw [← htext]
    simp only [List.length_append]
    omega
  rw [← htext, stands_append, stands_append, stands_append] at h
  obtain ⟨⟨hstandsSign, hstandsInt, hstandsF⟩, hstandsE⟩ := h
  rw [List.length_append, List.length_append, ← Nat.add_assoc, ← Nat.add_assoc] at hstandsE
  rw [hlen] at hend
  -- what follows each part is no more of it
  have hendE : ∀ b, bytes[start + sign.length + t.integer.length + f.length]? = some b → ¬ IsDigit b ∧ b ≠ 0x2e := by
    refine next_of_stands hstandsE (fun b hb => ?_) fun b hb => ?_
    · rw [← he] at hb
      cases hexp : t.exponent with
      | none =>
        rw [hexp] at hb
        cases hb
      | some x =>
        rw [hexp] at hb
        cases hb
        rcases (ht.exponent _ _ _ hexp).1 with h | h <;> rw [h] <;> decide
    · exact ⟨(hend.not_number hb).1, (hend.not_number hb).2.1⟩
  have hendF : ∀ b, bytes[start + sign.length + t.integer.length]? = some b → ¬ IsDigit b := by
    refine next_of_stands hstandsF (fun b hb => ?_) fun b hb => (hendE b hb).1
    rw [← hf] at hb
    cases hfrac : t.fraction with
    | none =>
      rw [hfrac] at hb
      cases hb
    | some x =>
      rw [hfrac] at hb
      cases hb
      decide
  have hskip : skipIf bytes (fun b => decide (b = 0x2d)) start = start + sign.length := by
    obtain ⟨b, u, hb⟩ := ht.noLeadingZero.cons
    cases hn : t.negative with
    | true =>
      rw [hn, if_pos rfl] at hsign
      rw [← hsign] at hstandsSign ⊢
      rw [skipIf_eq (stands_cons.1 hstandsSign).1]
      rfl
    | false =>
      rw [hn, if_neg (by decide)] at hsign
      rw [← hsign, hb] at hstandsInt
      have hdigit := ht.integer.2 b (hb ▸ List.mem_cons_self)
      have hnext : bytes[start]? = some b := (stands_cons.1 hstandsInt).1
      rw [skipIf_eq hnext, if_neg, ← hsign]
      · rfl
      · intro h
        rw [of_decide_eq_true h] at hdigit
        exact absurd hdigit (by decide)
  have hinteger := integerPart_eq ht.noLeadingZero hstandsInt hendF
  have hfraction := fractionPart_eq ht.fraction (hf ▸ hstandsF) (hf ▸ hendE)
  have hexponent := exponentPart_eq ht.exponent (he ▸ hstandsE)
    (he ▸ fun b hb => ⟨(hend.not_number hb).1, (hend.not_number hb).2.2⟩)
  rw [hf] at hfraction
  rw [he] at hexponent
  simp only [number, hskip, hinteger, hfraction, hexponent, bind, Except.bind]
  rw [← hlen, if_neg (by omega), Nat.add_sub_cancel_left, htake, hs]

/-! ### Strings -/

theorem Stands.lt {pos : Nat} {w : List Byte} (h : Stands bytes pos w) (hne : w ≠ []) :
    pos + w.length ≤ bytes.length := by
  obtain ⟨b, rest, rfl⟩ := List.exists_cons_of_ne_nil hne
  have hpos := List.getElem?_eq_some_iff.1 (stands_cons.1 h).1
  exact h.length_le (Nat.le_of_lt hpos.1)

/-- A character is as long as its lead byte says. -/
theorem utf8Len_encode (c : Char) :
    ∃ lead bs, String.utf8EncodeChar c = lead :: bs ∧ utf8Len lead = some (bs.length + 1) := by
  by_cases hc : c.toNat < 0x80
  · refine ⟨_, [], utf8Encode_ascii hc, if_pos ?_⟩
    rw [UInt8.toNat_ofNat']
    omega
  · obtain ⟨lead, bs, n, lo, hi, cp, henc, hshape, hlen, _⟩ := shape_of_utf8Encode (Nat.le_of_not_lt hc)
    refine ⟨lead, bs, henc, ?_⟩
    have hlead := utf8LeadShape_some hshape
    unfold utf8Len
    rw [if_neg (by omega), hlen]
    rcases hlead with ⟨rfl, _⟩ | ⟨rfl, _⟩ | ⟨rfl, _⟩
    · rw [if_pos (by omega)]
    · rw [if_neg (by omega), if_pos (by omega)]
    · rw [if_neg (by omega), if_neg (by omega), if_pos (by omega)]

theorem utf8Char_spec {pos pos' : Nat} {c : Char} (h : utf8Char bytes pos = .ok (c, pos')) :
    Stands bytes pos (String.utf8EncodeChar c) ∧ pos' = pos + (String.utf8EncodeChar c).length := by
  unfold utf8Char at h
  split at h
  · cases h
  rename_i lead hlead
  split at h
  · cases h
  rename_i len hlen
  split at h
  · cases h
  rename_i hbound
  split at h
  · cases h
  · cases h
  rename_i c' rest hchunk
  cases h
  rw [strFromUtf8_iff, List.flatMap_cons] at hchunk
  have hstands := @stands_take bytes pos len
  have hlength := congrArg List.length hchunk
  rw [List.length_take, List.length_drop, List.length_append] at hlength
  rw [hchunk, stands_append] at hstands
  obtain ⟨lead', bs, henc, hlen'⟩ := utf8Len_encode c
  -- the lead byte of the character is the one that was looked at
  rw [henc] at hstands hlength ⊢
  have hsame := (stands_cons.1 hstands.1).1
  rw [hlead] at hsame
  cases hsame
  rw [hlen] at hlen'
  cases hlen'
  rw [List.length_cons]
  exact ⟨hstands.1, rfl⟩

theorem utf8Char_eq {pos : Nat} {c : Char} (h : Stands bytes pos (String.utf8EncodeChar c)) :
    utf8Char bytes pos = .ok (c, pos + (String.utf8EncodeChar c).length) := by
  have hbound := h.lt (utf8Encode_ne_nil c)
  have htake := h.take
  have hread : strFromUtf8 (String.utf8EncodeChar c) = some [c] := (strFromUtf8_iff _ _).2 (by simp)
  obtain ⟨lead, bs, henc, hlen⟩ := utf8Len_encode c
  have hlength : (String.utf8EncodeChar c).length = bs.length + 1 := by rw [henc, List.length_cons]
  have hlead : bytes[pos]? = some lead := (stands_cons.1 (henc ▸ h)).1
  rw [hlength] at hbound htake ⊢
  simp only [utf8Char, hlead, hlen, htake, hread]
  exact if_neg (by omega)

theorem hex4_spec {pos pos' v : Nat} (h : hex4 bytes pos = .ok (v, pos')) :
    ∃ ds, ds.length = 4 ∧ hexValue ds = some v ∧ Stands bytes pos ds ∧ pos' = pos + 4 := by
  unfold hex4 at h
  split at h
  · cases h
  · split at h
    · rename_i hv
      cases h
      refine ⟨_, ?_, hv, stands_take, rfl⟩
      rw [List.length_take, List.length_drop]
      omega
    · cases h

theorem hex4_eq {pos v : Nat} {ds : List Byte} (h : Stands bytes pos ds) (hfour : ds.length = 4)
    (hv : hexValue ds = some v) :
    hex4 bytes pos = .ok (v, pos + 4) := by
  have hbound := h.lt (by rintro rfl; cases hfour)
  have htake := h.take
  rw [hfour] at htake hbound
  simp only [hex4, htake, hv]
  exact if_neg (by omega)

theorem unicodeEscapeChar_spec {pos pos' : Nat} {c : Char} (h : unicodeEscapeChar bytes pos = .ok (c, pos'))
    (hu : bytes[pos]? = some 0x75) :
    ∃ u, Stands bytes pos u ∧ pos' = pos + u.length ∧ Spells (0x5c :: u) c := by
  obtain ⟨⟨hi, p₁⟩, hhigh, h₁⟩ := bind_ok h
  obtain ⟨⟨code, p₂⟩, hcode, h₂⟩ := bind_ok h₁
  obtain ⟨ds, hfour, hvalue, hstands, rfl⟩ := hex4_spec hhigh
  clear h h₁
  rename' h₂ => h
  dsimp only at h
  unfold codePoint at hcode
  split at h
  swap
  · cases h
  rename_i c' hc
  cases h
  have hchar := charFromU32_some hc
  have hlen : (0x75 :: ds).length = 5 := by rw [List.length_cons, hfour]
  split at hcode
  · rename_i hrange
    split at hcode
    · cases hcode
    rename_i hnext
    push Not at hnext
    obtain ⟨⟨lo, p₃⟩, hlow, hcode⟩ := bind_ok hcode
    obtain ⟨es, hfour', hvalue', hstands', rfl⟩ := hex4_spec hlow
    dsimp only at hcode
    split at hcode
    · cases hcode
    rename_i hlowRange
    rw [Except.ok.injEq, Prod.mk.injEq] at hcode
    obtain ⟨rfl, rfl⟩ := hcode
    refine ⟨0x75 :: ds ++ unicodeEscape es, stands_append.2 ⟨stands_cons.2 ⟨hu, hstands⟩, ?_⟩, ?_, ?_⟩
    · rw [hlen, show pos + 5 = pos + 1 + 4 by omega, unicodeEscape, stands_cons, stands_cons]
      exact ⟨hnext.1, hnext.2, hstands'⟩
    · simp [unicodeEscape, hfour, hfour']
    · exact .pair hfour hfour' hvalue hvalue' hrange (not_not.1 hlowRange) hchar
  · split at hcode
    · cases hcode
    cases hcode
    refine ⟨0x75 :: ds, stands_cons.2 ⟨hu, hstands⟩, by rw [hlen], .unicode hfour ?_⟩
    rw [hvalue, hchar]

theorem escape_spec {pos pos' : Nat} {c : Char} (h : escape bytes pos = .ok (c, pos')) :
    ∃ u, Stands bytes pos u ∧ pos' = pos + u.length ∧ Spells (0x5c :: u) c := by
  unfold escape at h
  split at h
  · cases h
  rename_i b hb
  split at h
  · rename_i hshort
    cases h
    exact ⟨[b], stands_cons.2 ⟨hb, stands_nil _⟩, rfl, .short hshort⟩
  · split at h
    · rename_i hu
      exact unicodeEscapeChar_spec h (hu ▸ hb)
    · cases h

theorem unicodeEscapeChar_eq {pos : Nat} {c : Char} {ds : List Byte} (hfour : ds.length = 4)
    (hvalue : hexValue ds = some c.toNat)
    (h : Stands bytes pos (0x75 :: ds)) : unicodeEscapeChar bytes pos = .ok (c, pos + (0x75 :: ds).length) := by
  have hvalid : c.toNat.isValidChar := c.valid
  unfold Nat.isValidChar at hvalid
  have hcode : codePoint bytes c.toNat (pos + 1 + 4) = .ok (c.toNat, pos + 1 + 4) := by
    rw [codePoint, if_neg (by omega), if_neg (by omega)]
  simp only [unicodeEscapeChar, hex4_eq (stands_cons.1 h).2 hfour hvalue, bind, Except.bind, hcode, charFromU32_toNat,
    List.length_cons, hfour]

theorem unicodeEscapeChar_pair {pos hi lo : Nat} {c : Char} {high low : List Byte} (high4 : high.length = 4)
    (low4 : low.length = 4)
    (highValue : hexValue high = some hi) (lowValue : hexValue low = some lo) (highRange : 0xd800 ≤ hi ∧ hi ≤ 0xdbff)
    (lowRange : 0xdc00 ≤ lo ∧ lo ≤ 0xdfff) (code : c.toNat = 0x10000 + (hi - 0xd800) * 0x400 + (lo - 0xdc00))
    (h : Stands bytes pos (0x75 :: high ++ unicodeEscape low)) :
    unicodeEscapeChar bytes pos = .ok (c, pos + (0x75 :: high ++ unicodeEscape low).length) := by
  obtain ⟨hhigh, hlow⟩ := stands_append.1 h
  have hlen : pos + (0x75 :: high).length = pos + 1 + 4 := by
    rw [List.length_cons, high4]
  rw [hlen, unicodeEscape, stands_cons, stands_cons] at hlow
  have hcode : codePoint bytes hi (pos + 1 + 4) = .ok (c.toNat, pos + 1 + 4 + 2 + 4) := by
    have hnext : ¬(bytes[pos + 1 + 4]? ≠ some 0x5c ∨ bytes[pos + 1 + 4 + 1]? ≠ some 0x75) := by
      push Not
      exact ⟨hlow.1, hlow.2.1⟩
    rw [codePoint, if_pos highRange, if_neg hnext, code]
    simp only [hex4_eq hlow.2.2 low4 lowValue, bind, Except.bind, if_neg (not_not_intro lowRange)]
  simp only [unicodeEscapeChar, hex4_eq (stands_cons.1 hhigh).2 high4 highValue, bind, Except.bind, hcode,
    charFromU32_toNat]
  simp [unicodeEscape, high4, low4]

/-- **The body of a string is read as what it spells.** -/
theorem stringBody_spec : ∀ {fuel pos pos' : Nat} {out s : Text}, stringBody bytes fuel out pos = .ok (s, pos') →
    ∃ body cs, Spelling body cs ∧ s = out ++ cs ∧ Stands bytes pos (body ++ [0x22]) ∧ pos' = pos + body.length + 1
  | 0, _, _, _, _, h => by cases h
  | fuel + 1, pos, pos', out, s, h => by
    rw [stringBody] at h
    split at h
    · cases h
    rename_i b hb
    split at h
    · rename_i hquote
      cases h
      exact ⟨[], [], Spelling.nil, (List.append_nil _).symm, stands_cons.2 ⟨hquote ▸ hb, stands_nil _⟩, rfl⟩
    rename_i hquote
    split at h
    · rename_i hslash
      obtain ⟨⟨c, p⟩, hescape, h⟩ := bind_ok h
      obtain ⟨u, hstands, rfl, hspells⟩ := escape_spec hescape
      obtain ⟨body, cs, hspelling, rfl, hrest, rfl⟩ := stringBody_spec h
      refine ⟨(0x5c :: u) ++ body, c :: cs, (Spelling.single hspells).append hspelling, by simp, ?_, ?_⟩
      · rw [List.append_assoc, stands_append, stands_cons, List.length_cons]
        exact ⟨⟨hslash ▸ hb, hstands⟩, by rwa [show pos + (u.length + 1) = pos + 1 + u.length by omega]⟩
      · rw [List.length_append, List.length_cons]
        omega
    rename_i hslash
    split at h
    · cases h
    rename_i hcontrol
    obtain ⟨⟨c, p⟩, hchar, h⟩ := bind_ok h
    obtain ⟨hstands, rfl⟩ := utf8Char_spec hchar
    obtain ⟨body, cs, hspelling, rfl, hrest, rfl⟩ := stringBody_spec h
    have hraw : Spells (String.utf8EncodeChar c) c := by
      have hfirst : c.toNat < 0x80 → b.toNat = c.toNat := fun hc => by
        have henc := utf8Encode_ascii hc
        rw [henc] at hstands
        have hsame := (stands_cons.1 hstands).1
        rw [hb] at hsame
        rw [Option.some.inj hsame, UInt8.toNat_ofNat', Nat.mod_eq_of_lt (by omega)]
      refine .raw c ?_ (fun hc => hquote ?_) fun hc => hslash ?_
      · by_contra hlow
        have := hfirst (by omega)
        omega
      · have h := hfirst (hc ▸ by decide)
        rw [hc] at h
        exact UInt8.toNat_inj.1 h
      · have h := hfirst (hc ▸ by decide)
        rw [hc] at h
        exact UInt8.toNat_inj.1 h
    refine ⟨String.utf8EncodeChar c ++ body, c :: cs, (Spelling.single hraw).append hspelling, by simp, ?_, ?_⟩
    · rw [List.append_assoc, stands_append]
      exact ⟨hstands, hrest⟩
    · rw [List.length_append]
      omega

theorem raw_first {c : Char} (printable : 0x20 ≤ c.toNat) (quote : c ≠ '"') (backslash : c ≠ '\\') :
    ∃ b bs, String.utf8EncodeChar c = b :: bs ∧ b ≠ 0x22 ∧ b ≠ 0x5c ∧ 0x20 ≤ b.toNat := by
  by_cases hc : c.toNat < 0x80
  · have hb : (UInt8.ofNat c.toNat).toNat = c.toNat := by rw [UInt8.toNat_ofNat', Nat.mod_eq_of_lt (by omega)]
    refine ⟨_, [], utf8Encode_ascii hc, fun h => quote ?_, fun h => backslash ?_, by omega⟩
    · rw [h] at hb
      exact Char.toNat_inj.1 hb.symm
    · rw [h] at hb
      exact Char.toNat_inj.1 hb.symm
  · obtain ⟨lead, bs, n, lo, hi, cp, henc, hshape, _⟩ := shape_of_utf8Encode (Nat.le_of_not_lt hc)
    have hlead := utf8LeadShape_some hshape
    have hlow : 0xc0 ≤ lead.toNat := by omega
    refine ⟨lead, bs, henc, ?_, ?_, by omega⟩
    · rintro rfl
      exact absurd hlow (by decide)
    · rintro rfl
      exact absurd hlow (by decide)

theorem stringBody_escape {fuel pos p : Nat} {out : Text} {c : Char} (hb : bytes[pos]? = some 0x5c)
    (h : escape bytes (pos + 1) = .ok (c, p)) :
    stringBody bytes (fuel + 1) out pos = stringBody bytes fuel (out ++ [c]) p := by
  rw [stringBody, hb]
  dsimp only
  rw [if_neg (by decide), if_pos rfl, h]
  rfl

/-- The characters of a string are read one after the other. -/
theorem stringBody_spells {fuel pos : Nat} {out : Text} {u : List Byte} {c : Char} (hu : Spells u c)
    (h : Stands bytes pos u) :
    stringBody bytes (fuel + 1) out pos = stringBody bytes fuel (out ++ [c]) (pos + u.length) := by
  cases hu with
  | raw c printable quote backslash =>
    obtain ⟨b, bs, henc, hquote, hslash, hcontrol⟩ := raw_first printable quote backslash
    have hb : bytes[pos]? = some b := (stands_cons.1 (henc ▸ h)).1
    rw [stringBody, hb]
    dsimp only
    rw [if_neg hquote, if_neg hslash, if_neg (by omega), utf8Char_eq h]
    rfl
  | @short b c hshort =>
    obtain ⟨hb, hrest⟩ := stands_cons.1 h
    refine stringBody_escape hb ?_
    rw [escape, (stands_cons.1 hrest).1]
    dsimp only
    rw [hshort]
    rfl
  | @unicode digits c four value =>
    obtain ⟨hb, hrest⟩ := stands_cons.1 h
    have hescape : escape bytes (pos + 1) = .ok (c, pos + 1 + (0x75 :: digits).length) := by
      rw [escape, (stands_cons.1 hrest).1]
      exact unicodeEscapeChar_eq four value hrest
    rw [stringBody_escape hb hescape]
    congr 1
    simp only [unicodeEscape, List.length_cons]
    omega
  | @pair high low hi lo c high4 low4 highValue lowValue highRange lowRange code =>
    obtain ⟨hb, hrest⟩ := stands_cons.1 h
    have hescape : escape bytes (pos + 1) = .ok (c, pos + 1 + (0x75 :: high ++ unicodeEscape low).length) := by
      rw [escape, (stands_cons.1 hrest).1]
      exact unicodeEscapeChar_pair high4 low4 highValue lowValue highRange lowRange code hrest
    rw [stringBody_escape hb hescape]
    congr 1
    simp only [unicodeEscape, List.length_cons, List.length_append]
    omega

theorem stringBody_eq {units : List (List Byte)} {cs : Text} (hall : List.Forall₂ Spells units cs) :
    ∀ {fuel pos : Nat} {out : Text},
    Stands bytes pos (units.flatten ++ [0x22]) → units.length < fuel →
      stringBody bytes fuel out pos = .ok (out ++ cs, pos + units.flatten.length + 1) := by
  induction hall with
  | nil =>
    intro fuel pos out h hfuel
    obtain ⟨fuel, rfl⟩ := Nat.exists_eq_succ_of_ne_zero (by omega : fuel ≠ 0)
    rw [Nat.succ_eq_add_one, stringBody, (stands_cons.1 h).1]
    simp
  | @cons u c units cs hu _ ih =>
    intro fuel pos out h hfuel
    obtain ⟨fuel, rfl⟩ := Nat.exists_eq_succ_of_ne_zero (by omega : fuel ≠ 0)
    rw [List.flatten_cons, List.append_assoc, stands_append] at h
    rw [List.length_cons] at hfuel
    rw [stringBody_spells hu h.1, ih h.2 (by omega), List.flatten_cons, List.length_append, List.append_assoc,
      ← Nat.add_assoc]
    rfl

theorem string_spec {pos pos' : Nat} {s : Text} (hb : bytes[pos]? = some 0x22) (h : string bytes pos = .ok (s, pos')) :
    ∃ w, Quoted w s ∧ Stands bytes pos w ∧ pos' = pos + w.length := by
  obtain ⟨body, cs, hspelling, hs, hstands, hpos'⟩ := stringBody_spec h
  rw [List.nil_append] at hs
  refine ⟨0x22 :: body ++ [0x22], ⟨body, hs ▸ hspelling, rfl⟩, stands_cons.2 ⟨hb, hstands⟩, ?_⟩
  rw [hpos', List.length_append, List.length_cons, List.length_singleton]
  omega

theorem spells_length_pos {u : List Byte} {c : Char} (h : Spells u c) : 0 < u.length := by
  cases h with
  | raw c => exact List.length_pos_iff.2 (utf8Encode_ne_nil c)
  | short => exact Nat.succ_pos _
  | unicode => simp [unicodeEscape]
  | pair => simp [unicodeEscape]

theorem string_eq {pos : Nat} {w : List Byte} {s : Text} (hw : Quoted w s) (h : Stands bytes pos w) :
    string bytes pos = .ok (s, pos + w.length) := by
  obtain ⟨_, ⟨units, hall, rfl⟩, rfl⟩ := hw
  have hbody := (stands_cons.1 h).2
  have hbound := h.lt (by simp)
  have hunits : units.length ≤ units.flatten.length := by
    clear hbody hbound h
    induction hall with
    | nil => simp
    | cons hu _ ih =>
      have := spells_length_pos hu
      simp only [List.length_cons, List.flatten_cons, List.length_append]
      omega
  have hlen : (0x22 :: units.flatten ++ [0x22]).length = units.flatten.length + 2 := by simp
  rw [hlen] at hbound ⊢
  rw [string, stringBody_eq hall hbody (by omega), List.nil_append, Except.ok.injEq, Prod.mk.injEq]
  exact ⟨rfl, by omega⟩

end JsonParser
end MaskForge
