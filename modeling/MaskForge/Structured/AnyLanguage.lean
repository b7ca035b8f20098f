import MaskForge.Frontend.JsonText
import MaskForge.Structured.AnyJson
/-!
# AnyLanguage — what completes an unconstrained value

Every frame stands for a language: the bytes that complete its value, when the values below are left out.  The
quotients of these languages by a byte are what the frame does with the byte.
-/
namespace MaskForge

mutual

/-- No object repeats a name. -/
def Ast.Distinct : Ast → Prop
  | .arr items => Ast.DistinctItems items
  | .obj fields => (fields.map Prod.fst).Nodup ∧ Ast.DistinctFields fields
  | _ => True

def Ast.DistinctItems : List Ast → Prop
  | [] => True
  | a :: as => a.Distinct ∧ Ast.DistinctItems as

def Ast.DistinctFields : List (Text × Ast) → Prop
  | [] => True
  | (_, a) :: ms => a.Distinct ∧ Ast.DistinctFields ms

end

namespace AnyJson

open Derivative Language
open Decimal (AllDigits IsDigit Numeral)
open NumberForm (NumberText)

/-! ## Languages -/

theorem isDigit_iff {b : Byte} : isDigit b = true ↔ IsDigit b := by
  unfold isDigit IsDigit
  rw [decide_eq_true_eq, UInt8.le_iff_toNat_le, UInt8.le_iff_toNat_le]
  rfl

theorem isWs_iff {b : Byte} : isWs b = true ↔ IsWhitespace b := by
  unfold isWs ws IsWhitespace
  simp

def digits : Language Byte := letters IsDigit

def digits₁ : Language Byte := letters₁ IsDigit

def numerals : Language Byte := {w | Numeral w}

/-- The digits of an exponent, with their sign. -/
def signed : Language Byte := (1 + (word [0x2b] + word [0x2d])) * digits₁

def optExponent : Language Byte := 1 + (word [0x65] + word [0x45]) * signed

def optFraction : Language Byte := 1 + word [0x2e] * digits₁

/-- What completes a number. -/
def numberLang : NumberPhase → Language Byte
  | .intFirst => numerals * (optFraction * optExponent)
  | .intRest true => optFraction * optExponent
  | .intRest false => digits * (optFraction * optExponent)
  | .fracFirst => digits₁ * optExponent
  | .fracRest => digits * optExponent
  | .expSign => signed
  | .expFirst => digits₁
  | .expRest => digits

/-- The numbers of the grammar. -/
def numbers : Language Byte := {w | ∃ t : NumberText, t.Json ∧ t.text = w}

def spaces : Language Byte := letters IsWhitespace

def values : Language Byte := {w | ∃ a, Derives (.value a) w ∧ a.Distinct}

def items : Language Byte := {w | ∃ as, Derives (.items as) w ∧ Ast.DistinctItems as}

/-- The members of an object that has some names already. -/
def members (names : List Text) : Language Byte :=
  {w | ∃ ms, Derives (.members ms) w ∧ (names ++ ms.map Prod.fst).Nodup ∧ Ast.DistinctFields ms}

/-- What completes a string whose body a decoder is inside of, and what follows its closing quote. -/
def bodyThen (d : JsonStringDecoder) (rest : Text → Language Byte) : Language Byte :=
  {w | ∃ body cs d' v, d.feed body = some (cs, d') ∧ d'.atBoundary = true ∧ v ∈ rest cs ∧ w = body ++ 0x22 :: v}

/-- After an item. -/
def arrayTail : Language Byte := spaces * (word [0x5d] + word [0x2c] * (items * word [0x5d]))

/-- After a member. -/
def objectTail (names : List Text) : Language Byte :=
  spaces * (word [0x7d] + word [0x2c] * (members names * word [0x7d]))

/-- After a name that is read: nothing if the object has it already. -/
def memberRest (names : List Text) (name : Text) : Language Byte :=
  {w | (names ++ [name]).Nodup ∧ w ∈ spaces * (word [0x3a] * (spaces * (values * objectTail (names ++ [name]))))}

/-- What completes a scalar. -/
def scalarLang : ScalarPhase → Language Byte
  | .beforeValue => spaces * values
  | .trueAt matched => word (literalTrue.drop matched)
  | .falseAt matched => word (literalFalse.drop matched)
  | .nullAt matched => word (literalNull.drop matched)
  | .number phase => numberLang phase
  | .literalDone => 1

/-- What a step of a scalar leaves to be read. -/
def stepLang : ScalarStep → Language Byte
  | .cont next => scalarLang next
  | .startString => bodyThen .new fun _ => 1
  | .startArray => (spaces + items) * word [0x5d]
  | .startObject => (spaces + members []) * word [0x7d]
  | .done | .invalid => 0

/-! ## Numbers -/

theorem nil_mem_digits : [] ∈ digits := nil_mem_letters

theorem nil_notMem_digits₁ : [] ∉ digits₁ := nil_notMem_letters₁

theorem nil_mem_optExponent : [] ∈ optExponent := .inl rfl

theorem nil_mem_optFraction : [] ∈ optFraction := .inl rfl

theorem nil_notMem_numerals : [] ∉ numerals := by
  rintro (h | ⟨-, b, u, h, -⟩) <;> cases h

/-- **A number can end exactly in the phases that say so.** -/
theorem nil_mem_numberLang (p : NumberPhase) : [] ∈ numberLang p ↔ scalarIsComplete (.number p) = true := by
  cases p with
  | intRest leadingZero =>
    cases leadingZero <;>
      simp [numberLang, nil_mem_mul, scalarIsComplete, nil_mem_digits, nil_mem_optFraction, nil_mem_optExponent]
  | _ =>
    simp [numberLang, signed, nil_mem_mul, scalarIsComplete, nil_mem_digits, nil_notMem_digits₁, nil_notMem_numerals,
      nil_mem_optExponent]

section Quotients
variable {b : Byte}

theorem quotient_digits : digits.leftQuotient [b] = if isDigit b then digits else 0 := by
  split
  · rename_i h
    exact quotient_letters (isDigit_iff.1 h)
  · rename_i h
    exact quotient_letters_not fun hb => h (isDigit_iff.2 hb)

theorem quotient_digits₁ : digits₁.leftQuotient [b] = if isDigit b then digits else 0 := by
  split
  · rename_i h
    exact quotient_letters₁ (isDigit_iff.1 h)
  · rename_i h
    exact quotient_letters₁_not fun hb => h (isDigit_iff.2 hb)

theorem quotient_byte {a : Byte} : (word [a]).leftQuotient [b] = if b = a then 1 else 0 := by
  split
  · rename_i h
    subst h
    exact quotient_word
  · rename_i h
    exact quotient_word_ne h

theorem quotient_signed : signed.leftQuotient [b] =
    if b = 0x2b ∨ b = 0x2d then digits₁ else if isDigit b then digits else 0 := by
  have hnil : [] ∈ (1 + (word [0x2b] + word [0x2d]) : Language Byte) := .inl rfl
  rw [signed, quotient_mul_nil hnil, quotient_add, quotient_add, quotient_one, quotient_byte, quotient_byte,
    quotient_digits₁]
  by_cases h1 : b = 0x2b
  · subst h1
    simp [show isDigit 0x2b = false by decide]
  · by_cases h2 : b = 0x2d
    · subst h2
      simp [show isDigit 0x2d = false by decide]
    · simp [h1, h2]

theorem quotient_optExponent : optExponent.leftQuotient [b] = if b = 0x65 ∨ b = 0x45 then signed else 0 := by
  have hmark : [] ∉ (word [0x65] + word [0x45] : Language Byte) := by
    rintro (h | h) <;> exact nil_notMem_word h
  rw [optExponent, quotient_add, quotient_one, quotient_mul hmark, quotient_add, quotient_byte, quotient_byte]
  by_cases h1 : b = 0x65
  · subst h1
    simp
  · simp [h1]

theorem quotient_optFraction : optFraction.leftQuotient [b] = if b = 0x2e then digits₁ else 0 := by
  rw [optFraction, quotient_add, quotient_one, quotient_mul nil_notMem_word, quotient_byte]
  simp

theorem quotient_numerals : numerals.leftQuotient [b] = if b = 0x30 then 1 else if isDigit b then digits else 0 := by
  ext u
  rw [mem_quotient]
  show Numeral (b :: u) ↔ _
  by_cases hzero : b = 0x30
  · subst hzero
    rw [if_pos rfl, mem_one]
    constructor
    · rintro (h | ⟨-, c, v, h, hc⟩)
      · exact (List.cons.inj h).2
      · exact absurd (List.cons.inj h).1.symm hc
    · rintro rfl
      exact .inl rfl
  · rw [if_neg hzero]
    by_cases hdigit : isDigit b
    · rw [if_pos hdigit]
      constructor
      · intro h
        exact fun c hc => h.digits c (List.mem_cons_of_mem _ hc)
      · intro h
        exact .inr ⟨List.forall_mem_cons.2 ⟨isDigit_iff.1 hdigit, h⟩, b, u, rfl, hzero⟩
    · rw [if_neg hdigit]
      exact iff_of_false (fun h => hdigit (isDigit_iff.2 (h.digits b List.mem_cons_self))) (notMem_zero u)

/-- The fraction and the exponent, after the integer. -/
theorem quotient_optFraction_mul : (optFraction * optExponent).leftQuotient [b] =
    if b = 0x2e then digits₁ * optExponent else if b = 0x65 ∨ b = 0x45 then signed else 0 := by
  rw [quotient_mul_nil nil_mem_optFraction, quotient_optFraction, quotient_optExponent]
  by_cases h : b = 0x2e
  · subst h
    simp
  · simp [h]

/-- **The number phases read numbers.** -/
theorem quotient_numberLang (p : NumberPhase) : (numberLang p).leftQuotient [b] = stepLang (stepNumber p b) := by
  have hpoint : isDigit 0x2e = false := by decide
  have hmark : b = 0x65 ∨ b = 0x45 → isDigit b = false := by
    rintro (rfl | rfl) <;> decide
  cases p with
  | intFirst =>
    rw [numberLang, quotient_mul nil_notMem_numerals, quotient_numerals, stepNumber]
    split_ifs <;> simp [stepLang, scalarLang, numberLang]
  | intRest leadingZero =>
    cases leadingZero with
    | true =>
      rw [numberLang, quotient_optFraction_mul, stepNumber]
      split_ifs <;> simp_all [stepLang, scalarLang, numberLang]
    | false =>
      rw [numberLang, quotient_mul_nil nil_mem_digits, quotient_digits, quotient_optFraction_mul, stepNumber]
      by_cases hdigit : isDigit b
      · have h1 : b ≠ 0x2e := by
          rintro rfl
          cases hdigit.symm.trans hpoint
        have h2 : ¬(b = 0x65 ∨ b = 0x45) := fun h => by cases hdigit.symm.trans (hmark h)
        simp [hdigit, h1, h2, stepLang, scalarLang, numberLang]
      · split_ifs <;> simp_all [stepLang, scalarLang, numberLang]
  | fracFirst =>
    rw [numberLang, quotient_mul nil_notMem_digits₁, quotient_digits₁, stepNumber]
    split_ifs <;> simp [stepLang, scalarLang, numberLang]
  | fracRest =>
    rw [numberLang, quotient_mul_nil nil_mem_digits, quotient_digits, quotient_optExponent, stepNumber]
    by_cases hdigit : isDigit b
    · have h2 : ¬(b = 0x65 ∨ b = 0x45) := fun h => by cases hdigit.symm.trans (hmark h)
      simp [hdigit, h2, stepLang, scalarLang, numberLang]
    · split_ifs <;> simp_all [stepLang, scalarLang, numberLang]
  | expSign =>
    rw [numberLang, quotient_signed, stepNumber]
    split_ifs <;> rfl
  | expFirst =>
    rw [numberLang, quotient_digits₁, stepNumber]
    split_ifs <;> rfl
  | expRest =>
    rw [numberLang, quotient_digits, stepNumber]
    split_ifs <;> rfl

end Quotients

theorem mem_optFraction {w : List Byte} :
    w ∈ optFraction ↔ w = [] ∨ ∃ ds, (ds ≠ [] ∧ AllDigits ds) ∧ w = 0x2e :: ds := by
  rw [optFraction, mem_add, mem_one, mem_mul]
  refine or_congr_right ⟨?_, ?_⟩
  · rintro ⟨_, rfl, ds, hds, rfl⟩
    exact ⟨ds, hds, rfl⟩
  · rintro ⟨ds, hds, rfl⟩
    exact ⟨[0x2e], rfl, ds, hds, rfl⟩

theorem mem_optExponent {w : List Byte} : w ∈ optExponent ↔ w = [] ∨ ∃ mark sign ds, (mark = 0x65 ∨ mark = 0x45) ∧
    (sign = [] ∨ sign = [0x2d] ∨ sign = [0x2b]) ∧ (ds ≠ [] ∧ AllDigits ds) ∧ w = mark :: (sign ++ ds) := by
  rw [optExponent, mem_add, mem_one, mem_mul]
  refine or_congr_right ⟨?_, ?_⟩
  · rintro ⟨m, hm, e, he, rfl⟩
    obtain ⟨sign, hsign, ds, hds, rfl⟩ := mem_mul.1 he
    have hsign' : sign = [] ∨ sign = [0x2d] ∨ sign = [0x2b] := by
      rcases hsign with h | h | h
      · exact .inl h
      · exact .inr (.inr h)
      · exact .inr (.inl h)
    rcases hm with rfl | rfl
    · exact ⟨0x65, sign, ds, .inl rfl, hsign', hds, rfl⟩
    · exact ⟨0x45, sign, ds, .inr rfl, hsign', hds, rfl⟩
  · rintro ⟨mark, sign, ds, hmark, hsign, hds, rfl⟩
    have hm : [mark] ∈ (word [0x65] + word [0x45] : Language Byte) := by
      rcases hmark with rfl | rfl
      · exact .inl rfl
      · exact .inr rfl
    have hs : sign ∈ (1 + (word [0x2b] + word [0x2d]) : Language Byte) := by
      rcases hsign with h | h | h
      · exact .inl h
      · exact .inr (.inr h)
      · exact .inr (.inl h)
    exact ⟨[mark], hm, sign ++ ds, append_mem_mul hs hds, rfl⟩

theorem numbers_eq : numbers = (1 + word [0x2d]) * numberLang .intFirst := by
  ext w
  rw [mem_mul]
  constructor
  · rintro ⟨t, ht, rfl⟩
    have hsign : (if t.negative then [0x2d] else []) ∈ (1 + word [0x2d] : Language Byte) := by
      cases t.negative
      · exact .inl rfl
      · exact .inr rfl
    have hfraction : (t.fraction.elim [] fun f => 0x2e :: f) ∈ optFraction := by
      rw [mem_optFraction]
      cases hf : t.fraction with
      | none => exact .inl rfl
      | some f => exact .inr ⟨f, ht.fraction f hf, rfl⟩
    have hexponent : (t.exponent.elim [] fun e => e.1 :: (e.2.1 ++ e.2.2)) ∈ optExponent := by
      rw [mem_optExponent]
      cases he : t.exponent with
      | none => exact .inl rfl
      | some e =>
        obtain ⟨hmark, hsign, hds⟩ := ht.exponent _ _ _ he
        exact .inr ⟨_, _, _, hmark, hsign, hds, rfl⟩
    refine ⟨_, hsign, _, append_mem_mul ht.noLeadingZero (append_mem_mul hfraction hexponent), ?_⟩
    rw [NumberText.text, List.append_assoc, List.append_assoc]
  · rintro ⟨sign, hsign, rest, hrest, rfl⟩
    obtain ⟨integer, hinteger, tail, htail, rfl⟩ := mem_mul.1 hrest
    obtain ⟨f, hf, e, he, rfl⟩ := mem_mul.1 htail
    have hnegative : ∃ negative : Bool, sign = if negative then [0x2d] else [] := by
      rcases hsign with rfl | rfl
      · exact ⟨false, rfl⟩
      · exact ⟨true, rfl⟩
    have hfraction : ∃ fraction : Option (List Byte), (∀ ds, fraction = some ds → ds ≠ [] ∧ AllDigits ds) ∧
        f = fraction.elim [] fun ds => 0x2e :: ds := by
      rcases mem_optFraction.1 hf with rfl | ⟨ds, hds, rfl⟩
      · exact ⟨none, fun _ h => absurd h (by simp), rfl⟩
      · refine ⟨some ds, fun _ h => ?_, rfl⟩
        cases h
        exact hds
    have hexponent : ∃ exponent : Option (Byte × List Byte × List Byte),
      (∀ mark sign ds, exponent = some (mark, sign, ds) →
        (mark = 0x65 ∨ mark = 0x45) ∧ (sign = [] ∨ sign = [0x2d] ∨ sign = [0x2b]) ∧ ds ≠ [] ∧ AllDigits ds) ∧
        e = exponent.elim [] fun e => e.1 :: (e.2.1 ++ e.2.2) := by
      rcases mem_optExponent.1 he with rfl | ⟨mark, sign, ds, hmark, hsign, hds, rfl⟩
      · exact ⟨none, fun _ _ _ h => absurd h (by simp), rfl⟩
      · refine ⟨some (mark, sign, ds), fun _ _ _ h => ?_, rfl⟩
        cases h
        exact ⟨hmark, hsign, hds⟩
    obtain ⟨negative, rfl⟩ := hnegative
    obtain ⟨fraction, hfok, rfl⟩ := hfraction
    obtain ⟨exponent, heok, rfl⟩ := hexponent
    refine ⟨⟨negative, integer, fraction, exponent⟩, ⟨⟨⟨?_, Numeral.digits hinteger⟩, hfok, heok⟩, hinteger⟩, ?_⟩
    · rintro rfl
      exact nil_notMem_numerals hinteger
    · rw [NumberText.text, List.append_assoc, List.append_assoc]

theorem quotient_numbers {b : Byte} : numbers.leftQuotient [b] =
    if b = 0x2d then numberLang .intFirst
    else if b = 0x30 then numberLang (.intRest true)
    else if isDigit b then numberLang (.intRest false)
    else 0 := by
  have hnil : [] ∈ (1 + word [0x2d] : Language Byte) := .inl rfl
  rw [numbers_eq, quotient_mul_nil hnil, quotient_add, quotient_one, quotient_byte, quotient_numberLang, stepNumber]
  by_cases h : b = 0x2d
  · subst h
    simp [show isDigit 0x2d = false by decide, stepLang]
  · rw [if_neg h, if_neg h]
    split_ifs <;> simp [stepLang, scalarLang]

/-! ## Values -/

theorem items_close : items * word [0x5d] = spaces * (values * arrayTail) := by
  ext w
  rw [mem_mul, mem_mul]
  constructor
  · rintro ⟨_, ⟨as, h, hdistinct⟩, _, rfl, rfl⟩
    cases h with
    | @item u v w a hu h hw =>
      refine ⟨u, hu, _, append_mem_mul ⟨a, h, hdistinct.1⟩ (append_mem_mul hw (.inl rfl)), ?_⟩
      simp only [List.append_assoc]
    | @items u v w rest a as hu h hw more =>
      refine ⟨u, hu, _, append_mem_mul ⟨a, h, hdistinct.1⟩ (append_mem_mul hw (.inr (append_mem_mul rfl
        (append_mem_mul ⟨as, more, hdistinct.2⟩ rfl)))), ?_⟩
      simp only [List.append_assoc, List.cons_append, List.nil_append]
  · rintro ⟨u, hu, _, hrest, rfl⟩
    obtain ⟨v, ⟨a, h, ha⟩, _, htail, rfl⟩ := mem_mul.1 hrest
    obtain ⟨w, hw, _, hend, rfl⟩ := mem_mul.1 htail
    rcases hend with rfl | hmore
    · exact ⟨_, ⟨[a], .item hu h hw, ha, trivial⟩, _, rfl, by simp only [List.append_assoc]⟩
    · obtain ⟨_, rfl, _, hclosed, rfl⟩ := mem_mul.1 hmore
      obtain ⟨rest, ⟨as, more, has⟩, _, rfl, rfl⟩ := mem_mul.1 hclosed
      refine ⟨_, ⟨a :: as, .items hu h hw more, ha, has⟩, _, rfl, ?_⟩
      simp only [List.append_assoc, List.cons_append, List.nil_append]

theorem mem_bodyThen_quoted {k : List Byte} {key : Text} (h : Quoted k key) (rest : Text → Language Byte)
    {v : List Byte} (hv : v ∈ rest key) : k ++ v ∈ word [0x22] * bodyThen .new rest := by
  obtain ⟨body, hbody, rfl⟩ := h
  obtain ⟨d, hfeed, hd⟩ := (JsonStringDecoder.feed_iff_spelling body key).2 hbody
  refine mem_mul.2 ⟨[0x22], rfl, body ++ 0x22 :: v, ⟨body, key, d, v, hfeed, hd, hv, rfl⟩, ?_⟩
  simp only [List.append_assoc, List.cons_append, List.nil_append]

theorem quoted_of_mem_bodyThen {rest : Text → Language Byte} {w : List Byte}
    (h : w ∈ word [0x22] * bodyThen .new rest) :
    ∃ k key v, Quoted k key ∧ v ∈ rest key ∧ w = k ++ v := by
  obtain ⟨_, rfl, _, ⟨body, cs, d', v, hfeed, hd, hv, rfl⟩, rfl⟩ := mem_mul.1 h
  refine ⟨_, cs, v, ⟨body, (JsonStringDecoder.feed_iff_spelling body cs).1 ⟨d', hfeed, hd⟩, rfl⟩, hv, ?_⟩
  simp only [List.append_assoc, List.cons_append, List.nil_append]

theorem members_close (names : List Text) :
    members names * word [0x7d] = spaces * (word [0x22] * bodyThen .new (memberRest names)) := by
  ext w
  rw [mem_mul, mem_mul]
  constructor
  · rintro ⟨_, ⟨ms, h, hnodup, hdistinct⟩, _, rfl, rfl⟩
    cases h with
    | @member u k u' w v w' key a hu quoted hu' hw h hw' =>
      have hrest : u' ++ ([0x3a] ++ (w ++ (v ++ (w' ++ [0x7d])))) ∈ memberRest names key :=
        ⟨hnodup, append_mem_mul hu' (append_mem_mul rfl (append_mem_mul hw (append_mem_mul ⟨a, h, hdistinct.1⟩
          (append_mem_mul hw' (.inl rfl)))))⟩
      refine ⟨u, hu, _, mem_bodyThen_quoted quoted (memberRest names) hrest, ?_⟩
      simp only [List.append_assoc, List.cons_append, List.nil_append]
    | @members u k u' w v w' rest key a ms hu quoted hu' hw h hw' more =>
      have hfresh : (names ++ [key]).Nodup := by
        rw [List.map_cons, List.append_cons] at hnodup
        exact (List.nodup_append'.1 hnodup).1
      have hmore : (names ++ [key] ++ ms.map Prod.fst).Nodup := by
        rw [List.map_cons, List.append_cons] at hnodup
        exact hnodup
      have hrest : u' ++ ([0x3a] ++ (w ++ (v ++ (w' ++ ([0x2c] ++ (rest ++ [0x7d])))))) ∈ memberRest names key :=
        ⟨hfresh, append_mem_mul hu' (append_mem_mul rfl (append_mem_mul hw (append_mem_mul ⟨a, h, hdistinct.1⟩
          (append_mem_mul hw' (.inr (append_mem_mul rfl (append_mem_mul ⟨ms, more, hmore, hdistinct.2⟩ rfl)))))))⟩
      refine ⟨u, hu, _, mem_bodyThen_quoted quoted (memberRest names) hrest, ?_⟩
      simp only [List.append_assoc, List.cons_append, List.nil_append]
  · rintro ⟨u, hu, _, hbody, rfl⟩
    obtain ⟨k, key, _, quoted, ⟨hfresh, hrest⟩, rfl⟩ := quoted_of_mem_bodyThen hbody
    obtain ⟨u', hu', _, hcolon, rfl⟩ := mem_mul.1 hrest
    obtain ⟨_, rfl, _, hafter, rfl⟩ := mem_mul.1 hcolon
    obtain ⟨w, hw, _, hvalue, rfl⟩ := mem_mul.1 hafter
    obtain ⟨v, ⟨a, h, ha⟩, _, htail, rfl⟩ := mem_mul.1 hvalue
    obtain ⟨w', hw', _, hend, rfl⟩ := mem_mul.1 htail
    rcases hend with rfl | hmore
    · refine ⟨_, ⟨[(key, a)], .member hu quoted hu' hw h hw', hfresh, ha, trivial⟩, _, rfl, ?_⟩
      simp only [List.append_assoc, List.cons_append, List.nil_append]
    · obtain ⟨_, rfl, _, hclosed, rfl⟩ := mem_mul.1 hmore
      obtain ⟨rest, ⟨ms, more, hnodup, hms⟩, _, rfl, rfl⟩ := mem_mul.1 hclosed
      refine ⟨_, ⟨(key, a) :: ms, .members hu quoted hu' hw h hw' more, ?_, ha, hms⟩, _, rfl, ?_⟩
      · rw [List.map_cons, List.append_cons]
        exact hnodup
      · simp only [List.append_assoc, List.cons_append, List.nil_append]

/-- **The values, by their first bytes.** -/
theorem values_eq : values = word literalNull + word literalTrue + word literalFalse + numbers +
    word [0x22] * (bodyThen .new fun _ => 1) + word [0x5b] * ((spaces + items) * word [0x5d]) +
    word [0x7b] * ((spaces + members []) * word [0x7d]) := by
  ext w
  constructor
  · rintro ⟨a, h, hdistinct⟩
    cases h with
    | null => exact .inl (.inl (.inl (.inl (.inl (.inl rfl)))))
    | bool_true => exact .inl (.inl (.inl (.inl (.inl (.inr rfl)))))
    | bool_false => exact .inl (.inl (.inl (.inl (.inr rfl))))
    | num t json => exact .inl (.inl (.inl (.inr ⟨t, json, rfl⟩)))
    | str quoted =>
      have hmem := mem_bodyThen_quoted quoted (fun _ => (1 : Language Byte)) nil_mem_one
      rw [List.append_nil] at hmem
      exact .inl (.inl (.inr hmem))
    | arr_nil hu => exact .inl (.inr (append_mem_mul (a := [0x5b]) rfl (append_mem_mul (.inl hu) rfl)))
    | @arr w as h => exact .inl (.inr (append_mem_mul (a := [0x5b]) rfl (append_mem_mul (.inr ⟨as, h, hdistinct⟩) rfl)))
    | obj_nil hu => exact .inr (append_mem_mul (a := [0x7b]) rfl (append_mem_mul (.inl hu) rfl))
    | @obj w ms h =>
      exact .inr (append_mem_mul (a := [0x7b]) rfl (append_mem_mul (.inr ⟨ms, h, hdistinct.1, hdistinct.2⟩) rfl))
  · rintro ((((((rfl | rfl) | rfl) | ⟨t, json, rfl⟩) | hstr) | harr) | hobj)
    · exact ⟨.null, .null, trivial⟩
    · exact ⟨.bool true, .bool_true, trivial⟩
    · exact ⟨.bool false, .bool_false, trivial⟩
    · exact ⟨_, .num t json, trivial⟩
    · obtain ⟨k, key, v, quoted, hv, rfl⟩ := quoted_of_mem_bodyThen hstr
      rw [(mem_one v).1 hv, List.append_nil]
      exact ⟨_, .str quoted, trivial⟩
    · obtain ⟨_, rfl, _, hrest, rfl⟩ := mem_mul.1 harr
      obtain ⟨u, hu | ⟨as, h, has⟩, _, rfl, rfl⟩ := mem_mul.1 hrest
      · exact ⟨_, .arr_nil hu, trivial⟩
      · exact ⟨_, .arr h, has⟩
    · obtain ⟨_, rfl, _, hrest, rfl⟩ := mem_mul.1 hobj
      obtain ⟨u, hu | ⟨ms, h, hnodup, hms⟩, _, rfl, rfl⟩ := mem_mul.1 hrest
      · exact ⟨_, .obj_nil hu, List.nodup_nil, trivial⟩
      · exact ⟨_, .obj h, hnodup, hms⟩

/-! ## Scalars and strings -/

section Scalars
variable {b : Byte}

theorem quotient_word_cons {a : Byte} {u : List Byte} :
    (word (a :: u)).leftQuotient [b] = if b = a then word u else 0 := by
  split
  · rename_i h
    subst h
    exact quotient_word
  · rename_i h
    exact quotient_word_ne h

/-- **A value starts as a scalar's first step says.** -/
theorem quotient_values : values.leftQuotient [b] = stepLang (stepScalar .beforeValue b) := by
  have hsum : values.leftQuotient [b] = (if b = 0x6e then word [0x75, 0x6c, 0x6c] else 0) +
      (if b = 0x74 then word [0x72, 0x75, 0x65] else 0) + (if b = 0x66 then word [0x61, 0x6c, 0x73, 0x65] else 0) +
      numbers.leftQuotient [b] + (if b = 0x22 then bodyThen .new fun _ => 1 else 0) +
      (if b = 0x5b then (spaces + items) * word [0x5d] else 0) +
      if b = 0x7b then (spaces + members []) * word [0x7d] else 0 := by
    rw [values_eq]
    simp only [quotient_add, quotient_mul nil_notMem_word, quotient_word_cons, literalNull, literalTrue,
      literalFalse, word_nil, ite_mul, one_mul, zero_mul]
  rw [hsum, quotient_numbers]
  -- the bytes that start something other than a number, one after the other
  by_cases hquote : b = 0x22
  · subst hquote
    simp [stepScalar, stepLang, show isDigit 0x22 = false by decide]
  by_cases harray : b = 0x5b
  · subst harray
    simp [stepScalar, stepLang, show isDigit 0x5b = false by decide]
  by_cases hobject : b = 0x7b
  · subst hobject
    simp [stepScalar, stepLang, show isDigit 0x7b = false by decide]
  by_cases htrue : b = 0x74
  · subst htrue
    simp [stepScalar, stepLang, scalarLang, literalTrue, show isDigit 0x74 = false by decide]
  by_cases hfalse : b = 0x66
  · subst hfalse
    simp [stepScalar, stepLang, scalarLang, literalFalse, show isDigit 0x66 = false by decide]
  by_cases hnull : b = 0x6e
  · subst hnull
    simp [stepScalar, stepLang, scalarLang, literalNull, show isDigit 0x6e = false by decide]
  simp only [hquote, harray, hobject, htrue, hfalse, hnull, if_false, zero_add, add_zero, stepScalar]
  split_ifs <;> rfl

theorem quotient_literal {w : List Byte} {phase : Nat → ScalarPhase} (h : ∀ n, scalarLang (phase n) = word (w.drop n))
    (n : Nat) :
    (word (w.drop n)).leftQuotient [b] = stepLang (stepLiteral w phase n b) := by
  unfold stepLiteral
  by_cases hn : n < w.length
  · rw [List.drop_eq_getElem_cons hn, quotient_word_cons, List.getElem?_eq_getElem hn]
    by_cases hb : b = w[n]
    · rw [if_pos hb, if_neg (by simp [hb])]
      split_ifs with hlast
      · rw [List.drop_eq_nil_of_le (by omega)]
        rfl
      · exact (h _).symm
    · rw [if_neg hb, if_pos (by simpa using fun h => hb h.symm)]
      rfl
  · rw [List.drop_eq_nil_of_le (by omega), List.getElem?_eq_none (by omega), if_pos (by simp)]
    exact quotient_one

theorem stepScalar_ws_before (h : IsWhitespace b) : stepScalar .beforeValue b = .invalid := by
  rcases h with rfl | rfl | rfl | rfl <;> rfl

/-- No value starts with white space. -/
theorem quotient_values_ws (h : IsWhitespace b) : values.leftQuotient [b] = 0 := by
  rw [quotient_values, stepScalar_ws_before h]
  rfl

/-- **The scalar phases read scalars.** -/
theorem quotient_scalarLang {phase : ScalarPhase} (h : ¬(phase = .beforeValue ∧ isWs b = true)) :
    (scalarLang phase).leftQuotient [b] = stepLang (stepScalar phase b) := by
  cases phase with
  | beforeValue =>
    have hws : ¬ IsWhitespace b := fun hb => h ⟨rfl, isWs_iff.2 hb⟩
    rw [scalarLang, spaces, quotient_next hws]
    exact quotient_values
  | trueAt n => exact quotient_literal (fun n => (rfl : scalarLang (.trueAt n) = _)) n
  | falseAt n => exact quotient_literal (fun n => (rfl : scalarLang (.falseAt n) = _)) n
  | nullAt n => exact quotient_literal (fun n => (rfl : scalarLang (.nullAt n) = _)) n
  | number p => exact quotient_numberLang p
  | literalDone => exact quotient_one

theorem nil_notMem_values : [] ∉ values := by
  have hnumbers : [] ∉ numbers := by
    rw [numbers_eq, nil_mem_mul, nil_mem_numberLang]
    exact fun h => Bool.false_ne_true h.2
  rw [values_eq]
  rintro ((((((h | h) | h) | h) | h) | h) | h)
  · exact nil_notMem_word h
  · exact nil_notMem_word h
  · exact nil_notMem_word h
  · exact hnumbers h
  · exact nil_notMem_word (nil_mem_mul.1 h).1
  · exact nil_notMem_word (nil_mem_mul.1 h).1
  · exact nil_notMem_word (nil_mem_mul.1 h).1

theorem nil_notMem_bodyThen {d : JsonStringDecoder} {rest : Text → Language Byte} : [] ∉ bodyThen d rest := by
  rintro ⟨body, cs, d', v, -, -, -, h⟩
  cases body <;> cases h

/-- The closing quote of a string. -/
theorem quotient_bodyThen_close {u : List Byte} {d : JsonStringDecoder} (hat : d.At u) (hd : d.atBoundary = true)
    {rest : Text → Language Byte} : (bodyThen d rest).leftQuotient [0x22] = rest [] := by
  ext w
  rw [mem_quotient]
  constructor
  · rintro ⟨body, cs, d', v, hfeed, -, hv, heq⟩
    cases body with
    | nil =>
      cases hfeed
      cases heq
      exact hv
    | cons x body =>
      obtain ⟨rfl, -⟩ := List.cons.inj heq
      rw [JsonStringDecoder.feed, hat.push_quote hd] at hfeed
      cases hfeed
  · intro hw
    exact ⟨[], [], d, w, rfl, hd, hw, rfl⟩

/-- A byte of a string's body goes to its decoder. -/
theorem quotient_bodyThen {d : JsonStringDecoder} (h : ¬(b = 0x22 ∧ d.atBoundary = true))
    (rest : Text → Language Byte) :
    (bodyThen d rest).leftQuotient [b] = match d.push b with
      | (.cont, d') => bodyThen d' rest
      | (.scalar c, d') => bodyThen d' fun cs => rest (c :: cs)
      | (.invalid, _) => 0 := by
  ext w
  rw [mem_quotient]
  have hbody : b :: w ∈ bodyThen d rest ↔ ∃ body cs d' v, d.feed (b :: body) = some (cs, d') ∧ d'.atBoundary = true ∧
    v ∈ rest cs ∧
      w = body ++ 0x22 :: v := by
    constructor
    · rintro ⟨body, cs, d', v, hfeed, hd', hv, heq⟩
      cases body with
      | nil =>
        cases hfeed
        exact absurd ⟨(List.cons.inj heq).1, hd'⟩ h
      | cons x body =>
        obtain ⟨rfl, rfl⟩ := List.cons.inj heq
        exact ⟨body, cs, d', v, hfeed, hd', hv, rfl⟩
    · rintro ⟨body, cs, d', v, hfeed, hd', hv, rfl⟩
      exact ⟨b :: body, cs, d', v, hfeed, hd', hv, rfl⟩
  rw [hbody]
  simp only [JsonStringDecoder.feed]
  obtain ⟨step, d₁⟩ := d.push b
  cases step with
  | cont => rfl
  | scalar c =>
    dsimp only
    constructor
    · rintro ⟨body, _, d', v, hfeed, hd', hv, rfl⟩
      obtain ⟨⟨cs, _⟩, hfed, heq⟩ := Option.map_eq_some_iff.1 hfeed
      cases heq
      exact ⟨body, cs, _, v, hfed, hd', hv, rfl⟩
    · rintro ⟨body, cs, d', v, hfeed, hd', hv, rfl⟩
      refine ⟨body, c :: cs, d', v, ?_, hd', hv, rfl⟩
      rw [hfeed]
      rfl
  | invalid =>
    refine iff_of_false ?_ (notMem_zero w)
    rintro ⟨body, cs, d', v, hfeed, -⟩
    cases hfeed

end Scalars

/-! ## Frames -/

def arrayLang : AnyArrayPhase → Language Byte
  | .beforeFirstOrClose => (spaces + items) * word [0x5d]
  | .afterValue => arrayTail
  | .afterComma => items * word [0x5d]

/-- What completes an object that has some names. -/
def objectLang (names : List Text) (o : AnyObjectState) : Language Byte :=
  match o.phase with
  | .start => 0
  | .beforeFirstKeyOrClose => (spaces + members names) * word [0x7d]
  | .inKey => bodyThen o.keyDecoder fun cs => memberRest names (o.key ++ cs)
  | .afterKeyBeforeColon => memberRest names o.key
  | .afterColonBeforeValue => spaces * (values * objectTail names)
  | .afterValueBeforeCommaOrClose => objectTail names
  | .afterCommaBeforeKey => members names * word [0x7d]

/-- What completes the value of a frame; an object's names are those it has read the colons of. -/
def frameLang (names : List Text) : AnyFrame → Language Byte
  | .scalar phase _ => scalarLang phase
  | .stringBody d _ => bodyThen d fun _ => 1
  | .array phase _ => arrayLang phase
  | .object o => objectLang names o

/-- What completes the text, with the names of every frame beside it. -/
def stackLang : List (AnyFrame × List Text) → Language Byte
  | [] => spaces
  | (f, names) :: below => frameLang names f * stackLang below

theorem nil_notMem_arrayLang (phase : AnyArrayPhase) : [] ∉ arrayLang phase := by
  have hclose : [] ∉ (word [0x5d] : Language Byte) := nil_notMem_word
  have hcomma : [] ∉ (word [0x2c] : Language Byte) := nil_notMem_word
  cases phase <;> simp [arrayLang, arrayTail, nil_mem_mul, mem_add, hclose, hcomma]

theorem nil_notMem_objectTail (names : List Text) : [] ∉ objectTail names := by
  have hclose : [] ∉ (word [0x7d] : Language Byte) := nil_notMem_word
  have hcomma : [] ∉ (word [0x2c] : Language Byte) := nil_notMem_word
  simp [objectTail, nil_mem_mul, mem_add, hclose, hcomma]

theorem nil_notMem_memberRest (names : List Text) (name : Text) : [] ∉ memberRest names name := by
  rintro ⟨-, h⟩
  exact nil_notMem_word (nil_mem_mul.1 (nil_mem_mul.1 h).2).1

theorem nil_notMem_objectLang (names : List Text) (o : AnyObjectState) : [] ∉ objectLang names o := by
  have hclose : [] ∉ (word [0x7d] : Language Byte) := nil_notMem_word
  unfold objectLang
  split
  · exact notMem_zero []
  · simp [nil_mem_mul, hclose]
  · exact nil_notMem_bodyThen
  · exact nil_notMem_memberRest names _
  · simp [nil_mem_mul, nil_notMem_objectTail]
  · exact nil_notMem_objectTail names
  · simp [nil_mem_mul, hclose]

section Frames
variable {b : Byte} {names : List Text}

/-- Before the first item white space, an item or the bracket come. -/
theorem arrayLang_first : arrayLang .beforeFirstOrClose = spaces * (word [0x5d] + values * arrayTail) := by
  rw [arrayLang, add_mul, items_close, mul_add]

theorem quotient_array_first (h : ¬ IsWhitespace b) : (arrayLang .beforeFirstOrClose).leftQuotient [b] =
    if b = 0x5d then 1 else values.leftQuotient [b] * arrayTail := by
  rw [arrayLang_first, spaces, quotient_next h, quotient_add, quotient_mul nil_notMem_values, quotient_word_cons]
  split_ifs with hb
  · subst hb
    rw [quotient_values]
    simp [stepScalar, stepLang, word_nil, show isDigit 0x5d = false by decide]
  · rw [zero_add]

theorem quotient_array_tail (h : ¬ IsWhitespace b) : arrayTail.leftQuotient [b] =
    if b = 0x2c then items * word [0x5d] else if b = 0x5d then 1 else 0 := by
  rw [arrayTail, spaces, quotient_next h, quotient_add, quotient_mul nil_notMem_word, quotient_word_cons,
    quotient_word_cons]
  split_ifs with h1 h2
  · cases h1.symm.trans h2
  · rw [word_nil, zero_mul, add_zero]
  · rw [word_nil, one_mul, zero_add]
  · rw [zero_mul, add_zero]

theorem quotient_array_comma (h : ¬ IsWhitespace b) : (arrayLang .afterComma).leftQuotient [b] =
    values.leftQuotient [b] * arrayTail := by
  rw [arrayLang, items_close, spaces, quotient_next h, quotient_mul nil_notMem_values]

/-- White space inside an array changes nothing. -/
theorem quotient_array_ws (h : IsWhitespace b) (phase : AnyArrayPhase) :
    (arrayLang phase).leftQuotient [b] = arrayLang phase := by
  have hne : ∀ a : Byte, ¬ IsWhitespace a → b ≠ a := fun a ha hab => ha (hab ▸ h)
  have hvalue : (values * arrayTail).leftQuotient [b] = 0 := by
    rw [quotient_mul nil_notMem_values, quotient_values_ws h, zero_mul]
  cases phase with
  | beforeFirstOrClose =>
    rw [arrayLang_first]
    refine quotient_skip h ?_
    rw [quotient_add, hvalue, quotient_word_ne (hne _ (by decide)), add_zero]
  | afterValue =>
    refine quotient_skip h ?_
    rw [quotient_add, quotient_word_ne (hne _ (by decide)), quotient_mul nil_notMem_word,
      quotient_word_ne (hne _ (by decide)),
      zero_mul, add_zero]
  | afterComma =>
    rw [arrayLang, items_close]
    exact quotient_skip h hvalue

theorem quotient_object_tail (names : List Text) (h : ¬ IsWhitespace b) : (objectTail names).leftQuotient [b] =
    if b = 0x2c then members names * word [0x7d] else if b = 0x7d then 1 else 0 := by
  rw [objectTail, spaces, quotient_next h, quotient_add, quotient_mul nil_notMem_word, quotient_word_cons,
    quotient_word_cons]
  split_ifs with h1 h2
  · cases h1.symm.trans h2
  · rw [word_nil, zero_mul, add_zero]
  · rw [word_nil, one_mul, zero_add]
  · rw [zero_mul, add_zero]

theorem quotient_members (names : List Text) (h : ¬ IsWhitespace b) : (members names * word [0x7d]).leftQuotient [b] =
    if b = 0x22 then bodyThen .new (memberRest names) else 0 := by
  rw [members_close, spaces, quotient_next h, quotient_mul nil_notMem_word, quotient_word_cons]
  split_ifs
  · rw [word_nil, one_mul]
  · rw [zero_mul]

theorem object_first : (spaces + members names) * word [0x7d] =
    spaces * (word [0x7d] + word [0x22] * bodyThen .new (memberRest names)) := by
  rw [add_mul, members_close, mul_add]

theorem quotient_object_first (names : List Text) (h : ¬ IsWhitespace b) :
    ((spaces + members names) * word [0x7d]).leftQuotient [b] =
    if b = 0x22 then bodyThen .new (memberRest names) else if b = 0x7d then 1 else 0 := by
  rw [object_first, spaces, quotient_next h, quotient_add, quotient_mul nil_notMem_word, quotient_word_cons,
    quotient_word_cons]
  split_ifs with h1 h2
  · cases h1.symm.trans h2
  · rw [word_nil, zero_mul, add_zero]
  · rw [word_nil, one_mul, zero_add]
  · rw [zero_mul, add_zero]

theorem memberRest_fresh {name : Text} (h : (names ++ [name]).Nodup) :
    memberRest names name = spaces * (word [0x3a] * (spaces * (values * objectTail (names ++ [name])))) := by
  ext w
  exact and_iff_right h

/-- **Nothing completes an object at a name it has.** -/
theorem memberRest_repeated {name : Text} (h : ¬ (names ++ [name]).Nodup) : memberRest names name = 0 :=
  eq_zero_iff.2 fun _ hw => h hw.1

theorem quotient_memberRest (names : List Text) (name : Text) (h : ¬ IsWhitespace b) :
    (memberRest names name).leftQuotient [b] =
    if b = 0x3a ∧ (names ++ [name]).Nodup then spaces * (values * objectTail (names ++ [name])) else 0 := by
  by_cases hfresh : (names ++ [name]).Nodup
  · rw [memberRest_fresh hfresh, spaces, quotient_next h, quotient_mul nil_notMem_word, quotient_word_cons]
    by_cases hb : b = 0x3a
    · rw [if_pos hb, if_pos ⟨hb, hfresh⟩, word_nil, one_mul]
    · rw [if_neg hb, if_neg (fun h => hb h.1), zero_mul]
  · rw [memberRest_repeated hfresh, if_neg (fun h => hfresh h.2)]
    rfl

/-- White space between the parts of an object changes nothing. -/
theorem quotient_object_ws (h : IsWhitespace b) {o : AnyObjectState} (hstart : o.phase ≠ .start)
    (hkey : o.phase ≠ .inKey) :
    (objectLang names o).leftQuotient [b] = objectLang names o := by
  have hne : ∀ a : Byte, ¬ IsWhitespace a → b ≠ a := fun a ha hab => ha (hab ▸ h)
  have hquote : ∀ L : Language Byte, (word [0x22] * L).leftQuotient [b] = 0 := fun L => by
    rw [quotient_mul nil_notMem_word, quotient_word_ne (hne _ (by decide)), zero_mul]
  unfold objectLang
  split
  · rename_i hphase
    exact absurd hphase hstart
  · rw [object_first]
    refine quotient_skip h ?_
    rw [quotient_add, hquote, quotient_word_ne (hne _ (by decide)), add_zero]
  · rename_i hphase
    exact absurd hphase hkey
  · by_cases hfresh : (names ++ [o.key]).Nodup
    · rw [memberRest_fresh hfresh]
      refine quotient_skip h ?_
      rw [quotient_mul nil_notMem_word, quotient_word_ne (hne _ (by decide)), zero_mul]
    · rw [memberRest_repeated hfresh]
      rfl
  · refine quotient_skip h ?_
    rw [quotient_mul nil_notMem_values, quotient_values_ws h, zero_mul]
  · refine quotient_skip h ?_
    rw [quotient_add, quotient_word_ne (hne _ (by decide)), quotient_mul nil_notMem_word,
      quotient_word_ne (hne _ (by decide)),
      zero_mul, add_zero]
  · rw [members_close]
    exact quotient_skip h (hquote _)

end Frames
end AnyJson
end MaskForge
