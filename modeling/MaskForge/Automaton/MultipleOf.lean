import MaskForge.Automaton.Compose
import MaskForge.Automaton.Import
import MaskForge.Automaton.IntegerRegex
import MaskForge.Automaton.Product
import MaskForge.Lib.LabelTrie
/-!
# MultipleOf — the engines of the multiples of a number

A small modulus is decided by an automaton of remainders.  A larger one that divides a power of ten is decided by the
last digits: the multiples below the power, padded, behind any digits, and those with fewer digits by themselves.  Both
decide divisibility on every JSON integer, and with the range's engine they make up the integers in a range.
-/
namespace MaskForge

open Decimal (AllDigits Positive Numeral value IsDigit digitValue digitByte)
open IntegerRegex (CanonicalInteger integerValue)

/-- `build_from_regex`; what the library's determinization returns for a notation is a parameter. -/
def buildFromRegex {σ : Type} [DecidableEq σ] (dense : List Char → Except CompileError (DenseDfa σ))
    (pattern : List Char) :
    Except CompileError RefEngine := do
  let dfa ← dense pattern
  dfa.bfsMaterialize

def byteStringSet (values : List (List Byte)) : Except CompileError AutomatonGraph := do
  let rows ← LabelTrie.build maxGraphStates graphLimit values
  AutomatonGraph.fromByteStates rows 0

namespace MultipleOf

def maxMultipleOfModulus : Nat := 2 ^ 20

def maxSuffixEndings : Nat := 2 ^ 16

def maxEngineRemainderModulus : Nat := 2 ^ 12

def malformed (message : String) : CompileError := ⟨.malformed, .l2, message⟩

def limit : CompileError := ⟨.internalLimitExceeded, .l2, "multipleOf cap"⟩

/-- `checked_mul` and `checked_pow`, failing where the source's `ok_or_else` fails. -/
def checkedU64 (n : Nat) : Except CompileError Nat := if n ≤ u64Max then .ok n else .error limit

/-- Factors of `p` are divided out and counted; a `u64` has at most 63. -/
def divideOut (p : Nat) : Nat → Nat → Nat → Nat × Nat
  | 0, rest, count => (rest, count)
  | fuel + 1, rest, count => if rest % p = 0 then divideOut p fuel (rest / p) (count + 1) else (rest, count)

def powerOfTenFactorSuffix (modulus : Nat) : Option (Nat × Nat) :=
  let (rest, a) := divideOut 2 64 modulus 0
  let (rest, b) := divideOut 5 64 rest 0
  if rest ≠ 1 then none
  else
    let suffixLen := max a b
    if u64Max < 10 ^ suffixLen then none
    else
      let endingCount := 10 ^ suffixLen / modulus
      if maxSuffixEndings < endingCount then none else some (suffixLen, endingCount)

/-- An edge for each digit. -/
def digitEdges (target : Nat → Nat) : List (Byte × Nat) := (List.range 10).map fun d => (digitByte d, target d)

def optionalSignEngine : Except CompileError RefEngine :=
  AutomatonGraph.fromByteStates [(true, [(0x2d, 1)]), (true, [])] 0 >>= RefEngine.fromGraph

def digitStarEngine : Except CompileError RefEngine :=
  AutomatonGraph.fromByteStates [(true, digitEdges fun _ => 0)] 0 >>= RefEngine.fromGraph

def signedDigitStarEngine : Except CompileError RefEngine := do
  let sign ← optionalSignEngine
  let digits ← digitStarEngine
  concatenate [sign, digits] >>= RefEngine.fromGraph

/-- The digits of a number, with zeros in front up to a width. -/
def decimalBytes (n width : Nat) : List Byte :=
  let natural := if n = 0 then 1 else Nat.log 10 n + 1
  Decimal.padded (max width natural) n

def suffixPartsEngine (short padded : List (List Byte)) : Except CompileError RefEngine := do
  let shortEngine ← byteStringSet short >>= RefEngine.fromGraph
  let paddedEngine ← byteStringSet padded >>= RefEngine.fromGraph
  let digitStar ← digitStarEngine
  let long ← concatenate [digitStar, paddedEngine] >>= RefEngine.fromGraph
  let body ← union [shortEngine, long] >>= RefEngine.fromGraph
  let sign ← optionalSignEngine
  concatenate [sign, body] >>= RefEngine.fromGraph

def suffixEngine (suffixLen modulus endingCount : Nat) : Except CompileError RefEngine :=
  if suffixLen = 0 then signedDigitStarEngine
  else do
    let threshold ← checkedU64 (10 ^ (suffixLen - 1))
    let endings ← (List.range endingCount).mapM fun index => checkedU64 (index * modulus)
    suffixPartsEngine ((endings.filter fun ending => decide (ending < threshold)).map (decimalBytes · 0))
      (endings.map (decimalBytes · suffixLen))

/-- The start, the state behind the sign, and the remainders from two on. -/
def remainderDfaStates (modulus : Nat) : List ByteState := (List.range (modulus + 2)).map fun i =>
  (decide (i = 2),
    if i = 0 ∨ i = 1 then (if i = 0 then [(0x2d, 1)] else []) ++ digitEdges fun d => d % modulus + 2
    else digitEdges fun d => ((i - 2) * 10 + d) % modulus + 2)

def remainderDfaEngine (modulus : Nat) : Except CompileError RefEngine :=
  AutomatonGraph.fromByteStates (remainderDfaStates modulus) 0 >>= RefEngine.fromGraph

def multipleOfEngine (modulus : Nat) : Except CompileError RefEngine :=
  if modulus = 0 then .error (malformed "multipleOf must be a positive integer")
  else if maxMultipleOfModulus < modulus then .error limit
  else if modulus = 1 then signedDigitStarEngine
  else if modulus ≤ maxEngineRemainderModulus then remainderDfaEngine modulus
  else match powerOfTenFactorSuffix modulus with
    | some (suffixLen, endingCount) => suffixEngine suffixLen modulus endingCount
    | none => .error limit

/-- `none` stands for a panic of the notation. -/
def compileIntegerMultiple {σ : Type} [DecidableEq σ] (dense : List Char → Except CompileError (DenseDfa σ))
    (minimum maximum : Option Int64) (modulus : Nat) : Option (Except CompileError RefEngine) :=
  (IntegerRegex.integerRegex minimum maximum).map fun pattern => do
    let range ← buildFromRegex dense pattern
    let multiple ← multipleOfEngine modulus
    let product ← ProductAutomaton.build [range, multiple] .all
    product.intoEngine

/-! ### Engines of compositions -/

/-- A concatenation is a graph of byte states. -/
theorem concatenate_rows {engines : List RefEngine} {g : AutomatonGraph} (h : concatenate engines = .ok g) :
    ∃ states start, AutomatonGraph.fromByteStates states start = .ok g := by
  unfold concatenate at h
  split at h
  · exact ⟨_, _, h⟩
  · split at h
    · exact ⟨_, _, h⟩
    · obtain ⟨_, _, h⟩ := bind_ok h
      obtain ⟨⟨states, starts, runs⟩, _, h⟩ := bind_ok h
      obtain ⟨linked, _, h⟩ := bind_ok h
      obtain ⟨start, _, h⟩ := bind_ok h
      obtain ⟨⟨id, s⟩, _, h⟩ := bind_ok h
      exact ⟨_, _, h⟩

/-- So is a union. -/
theorem union_rows {engines : List RefEngine} {g : AutomatonGraph} (h : union engines = .ok g) :
    ∃ states start, AutomatonGraph.fromByteStates states start = .ok g := by
  unfold union at h
  split at h
  · exact ⟨_, _, h⟩
  · obtain ⟨_, _, h⟩ := bind_ok h
    obtain ⟨states, _, h⟩ := bind_ok h
    obtain ⟨start, _, h⟩ := bind_ok h
    obtain ⟨⟨id, s⟩, _, h⟩ := bind_ok h
    exact ⟨_, _, h⟩

theorem fromGraph_accepts {states : List ByteState} {start : Nat} {g : AutomatonGraph} {e : RefEngine}
    (hg : AutomatonGraph.fromByteStates states start = .ok g) (he : RefEngine.fromGraph g = .ok e) (w : List Byte) :
    e.accepts w = g.accepts w :=
  (fromGraph_language (AutomatonGraph.fromByteStates_ok hg).2 he).1 w

/-- The engine of two, one after the other. -/
theorem concatenate_engine {a b e : RefEngine} (h : (concatenate [a, b] >>= RefEngine.fromGraph) = .ok e)
    (w : List Byte) :
    e.accepts w = true ↔ ∃ u v, a.accepts u = true ∧ b.accepts v = true ∧ u ++ v = w := by
  obtain ⟨g, hg, he⟩ := bind_ok h
  obtain ⟨states, start, hrows⟩ := concatenate_rows hg
  rw [fromGraph_accepts hrows he, concatenate_exact hg]
  constructor
  · rintro ⟨ws, hws, rfl⟩
    obtain ⟨u, _, hu, hrest, rfl⟩ := List.forall₂_cons_left_iff.1 hws
    obtain ⟨v, _, hv, hnil, rfl⟩ := List.forall₂_cons_left_iff.1 hrest
    cases hnil
    exact ⟨u, v, hu, hv, by simp⟩
  · rintro ⟨u, v, hu, hv, rfl⟩
    exact ⟨[u, v], .cons hu (.cons hv .nil), by simp⟩

/-- The engine of two, either of which may accept. -/
theorem union_engine {a b e : RefEngine} (h : (union [a, b] >>= RefEngine.fromGraph) = .ok e) (w : List Byte) :
    e.accepts w = true ↔ a.accepts w = true ∨ b.accepts w = true := by
  obtain ⟨g, hg, he⟩ := bind_ok h
  obtain ⟨states, start, hrows⟩ := union_rows hg
  rw [fromGraph_accepts hrows he, union_exact hg]
  simp

/-- **A set of byte strings is exact.** -/
theorem byteStringSet_engine {values : List (List Byte)} {e : RefEngine}
    (h : (byteStringSet values >>= RefEngine.fromGraph) = .ok e) (w : List Byte) : e.accepts w = true ↔ w ∈ values := by
  obtain ⟨g, hg, he⟩ := bind_ok h
  obtain ⟨rows, hrows, hg⟩ := bind_ok hg
  rw [fromGraph_accepts hg he, AutomatonGraph.fromByteStates_accepts hg]
  exact LabelTrie.build_accepts hrows w

/-! ### Digits -/

theorem lookup_digitEdges (target : Nat → Nat) (b : Byte) :
    (digitEdges target).lookup b = if IsDigit b then some (target (digitValue b)) else none := by
  by_cases h : IsDigit b
  · rw [if_pos h]
    have hlt := Decimal.digitValue_lt h
    rw [← Decimal.digitByte_digitValue h, Decimal.digitValue_digitByte hlt]
    generalize digitValue b = d at hlt
    interval_cases d <;> rfl
  · rw [if_neg h, List.lookup_eq_none_iff]
    intro e he
    obtain ⟨d, hd, rfl⟩ := List.mem_map.1 he
    refine bne_iff_ne.2 fun heq => h ?_
    rw [heq]
    exact Decimal.isDigit_digitByte (List.mem_range.1 hd)

theorem isDigit_ne_sign {b : Byte} (h : IsDigit b) : b ≠ 0x2d := by
  rintro rfl
  exact absurd h (by decide)

/-- **Digits are what a loop over the digits accepts.** -/
theorem digitStar_accepts {e : RefEngine} (h : digitStarEngine = .ok e) (w : List Byte) :
    e.accepts w = true ↔ AllDigits w := by
  rw [byteStates_engine h]
  induction w with
  | nil => exact ⟨fun _ => Decimal.allDigits_nil, fun _ => rfl⟩
  | cons b w ih =>
    rw [Explore.accepts, Decimal.allDigits_cons, ← ih, List.getElem?_cons_zero, Option.bind_some, lookup_digitEdges]
    by_cases hb : IsDigit b
    · rw [if_pos hb, and_iff_right hb]
    · rw [if_neg hb]
      exact ⟨fun h => absurd h Bool.false_ne_true, fun h => absurd h.1 hb⟩

theorem optionalSign_accepts {e : RefEngine} (h : optionalSignEngine = .ok e) (w : List Byte) :
    e.accepts w = true ↔ w = [] ∨ w = [0x2d] := by
  rw [byteStates_engine h]
  cases w with
  | nil => exact ⟨fun _ => .inl rfl, fun _ => rfl⟩
  | cons b w =>
    rw [Explore.accepts, List.getElem?_cons_zero, Option.bind_some, List.lookup_cons]
    by_cases hb : b = 0x2d
    · subst hb
      cases w with
      | nil => simp [Explore.accepts]
      | cons c w => simp [Explore.accepts]
    · rw [beq_false_of_ne hb]
      simp [hb]

/-! ### Integers -/

/-- A JSON integer: a numeral and perhaps a sign, also before a zero. -/
def JsonInteger (w : List Byte) : Prop := ∃ d, Numeral d ∧ (w = d ∨ w = 0x2d :: d)

/-- **A sign before digits is read as one.** -/
theorem signed_iff {P : List Byte → Prop} (hP : ∀ d, P d → AllDigits d) {d w : List Byte} (hd : Numeral d)
    (hw : w = d ∨ w = 0x2d :: d) :
    (∃ s u, (s = [] ∨ s = [0x2d]) ∧ P u ∧ s ++ u = w) ↔ P d := by
  constructor
  · rintro ⟨s, u, rfl | rfl, hu, rfl⟩
    · rcases hw with rfl | hw
      · exact hu
      · rw [List.nil_append] at hw
        exact absurd rfl (isDigit_ne_sign (hP _ (hw ▸ hu)).head)
    · rcases hw with hw | hw
      · exact absurd rfl (isDigit_ne_sign (hw ▸ hd.digits : AllDigits ([0x2d] ++ u)).head)
      · rwa [← (List.cons.inj hw).2]
  · intro h
    rcases hw with rfl | rfl
    · exact ⟨[], _, .inl rfl, h, rfl⟩
    · exact ⟨[0x2d], d, .inr rfl, h, rfl⟩

theorem dvd_integerValue {m : Nat} {d w : List Byte} (hd : Numeral d) (hw : w = d ∨ w = 0x2d :: d) :
    (m : Int) ∣ integerValue w ↔ m ∣ value d := by
  rcases hw with rfl | rfl
  · rw [IntegerRegex.integerValue_positive hd.digits, Int.natCast_dvd_natCast]
  · rw [IntegerRegex.integerValue_negative, Int.dvd_neg, Int.natCast_dvd_natCast]

theorem signedDigitStar_accepts {e : RefEngine} (h : signedDigitStarEngine = .ok e) {d w : List Byte} (hd : Numeral d)
    (hw : w = d ∨ w = 0x2d :: d) : e.accepts w = true := by
  obtain ⟨sign, hsign, h⟩ := bind_ok h
  obtain ⟨digits, hdigits, h⟩ := bind_ok h
  rw [concatenate_engine h]
  simp only [optionalSign_accepts hsign, digitStar_accepts hdigits]
  obtain ⟨s, u, hs, hu, hsu⟩ := (signed_iff (fun _ h => h) hd hw).2 hd.digits
  exact ⟨s, u, hs, hu, hsu⟩

/-! ### Remainders -/

theorem getElem?_remainder {m i : Nat} (hi : i < m + 2) : (remainderDfaStates m)[i]? = some (decide (i = 2),
    if i = 0 ∨ i = 1 then (if i = 0 then [(0x2d, 1)] else []) ++ digitEdges fun d => d % m + 2
    else digitEdges fun d => ((i - 2) * 10 + d) % m + 2) := by
  rw [remainderDfaStates, List.getElem?_map, List.getElem?_range hi]
  rfl

/-- **The state behind some digits is their remainder.** -/
theorem remainder_accepts {m : Nat} : ∀ {w : List Byte} {r : Nat}, r < m →
    (Explore.accepts (remainderDfaStates m) (r + 2) w = true ↔ AllDigits w ∧ m ∣ r * 10 ^ w.length + value w)
  | [], r, hr => by
    rw [Explore.accepts, getElem?_remainder (by omega)]
    simp only [Option.map_some, Option.getD_some, decide_eq_true_eq, List.length_nil, pow_zero, mul_one]
    have hzero : r + 2 = 2 ↔ r = 0 := by omega
    rw [hzero]
    constructor
    · rintro rfl
      exact ⟨Decimal.allDigits_nil, Dvd.intro_left 0 (by simp [value])⟩
    · rintro ⟨_, hdvd⟩
      exact Nat.eq_zero_of_dvd_of_lt hdvd hr
  | b :: w, r, hr => by
    have hsplit : ¬ (r + 2 = 0 ∨ r + 2 = 1) := by omega
    rw [Explore.accepts, getElem?_remainder (by omega), Option.bind_some, if_neg hsplit, lookup_digitEdges,
      Decimal.allDigits_cons]
    by_cases hb : IsDigit b
    · rw [if_pos hb, and_iff_right hb]
      dsimp only
      rw [remainder_accepts (Nat.mod_lt _ (Nat.zero_lt_of_lt hr)), Nat.add_sub_cancel, Decimal.value_cons,
        List.length_cons]
      refine and_congr_right fun _ => ?_
      rw [Nat.dvd_iff_mod_eq_zero, Nat.dvd_iff_mod_eq_zero]
      have hstep : r * 10 ^ (w.length + 1) + (digitValue b * 10 ^ w.length + value w) = (r * 10 + digitValue b) *
        10 ^ w.length + value w := by
        rw [pow_succ]
        ring
      rw [hstep, Nat.add_mod, Nat.mod_mul_mod, ← Nat.add_mod]
    · rw [if_neg hb]
      exact ⟨fun h => absurd h Bool.false_ne_true, fun h => absurd h.1.1 hb⟩

/-- Both the start and the state behind the sign go on with the first digit. -/
theorem entry_accepts {m i : Nat} (hm : 0 < m) (hi : i = 0 ∨ i = 1) {d : List Byte} (hd : Numeral d) :
    Explore.accepts (remainderDfaStates m) i d = true ↔ m ∣ value d := by
  obtain ⟨b, u, rfl⟩ := hd.cons
  have hb := hd.digits.head
  have hlookup : ((if i = 0 then [((0x2d : Byte), 1)] else []) ++ digitEdges fun d => d % m + 2).lookup b =
    some (digitValue b % m + 2) := by
    have hrest := (lookup_digitEdges (fun d => d % m + 2) b).trans (if_pos hb)
    split
    · rw [List.singleton_append, List.lookup_cons, beq_false_of_ne (isDigit_ne_sign hb)]
      exact hrest
    · exact hrest
  rw [Explore.accepts, getElem?_remainder (by omega), Option.bind_some, if_pos hi, hlookup]
  dsimp only
  rw [remainder_accepts (Nat.mod_lt _ hm), Decimal.value_cons, Nat.dvd_iff_mod_eq_zero, Nat.dvd_iff_mod_eq_zero,
    Nat.add_mod, Nat.mod_mul_mod, ← Nat.add_mod, and_iff_right hd.digits.tail]

theorem remainderDfa_accepts {m : Nat} {e : RefEngine} (h : remainderDfaEngine m = .ok e) (hm : 0 < m) {d w : List Byte}
    (hd : Numeral d) (hw : w = d ∨ w = 0x2d :: d) : e.accepts w = true ↔ m ∣ value d := by
  rw [byteStates_engine h]
  rcases hw with rfl | rfl
  · exact entry_accepts hm (.inl rfl) hd
  · rw [Explore.accepts, getElem?_remainder (by omega), Option.bind_some, if_pos (.inl rfl), if_pos rfl,
      List.singleton_append, List.lookup_cons]
    exact entry_accepts hm (.inr rfl) hd

/-! ### Suffixes -/

theorem checkedU64_ok {n k : Nat} (h : checkedU64 n = .ok k) : k = n := by
  unfold checkedU64 at h
  split at h
  · exact (Except.ok.inj h).symm
  · cases h

theorem mapM_checkedU64 {f : Nat → Nat} :
    ∀ {l out : List Nat}, (l.mapM fun i => checkedU64 (f i)) = .ok out → out = l.map f
  | [], out, h => by
    cases h
    rfl
  | i :: l, out, h => by
    rw [List.mapM_cons] at h
    obtain ⟨n, hn, h⟩ := bind_ok h
    obtain ⟨rest, hrest, h⟩ := bind_ok h
    cases h
    rw [checkedU64_ok hn, mapM_checkedU64 hrest, List.map_cons]

theorem divideOut_spec (p : Nat) : ∀ (fuel rest count : Nat),
    (divideOut p fuel rest count).1 * p ^ (divideOut p fuel rest count).2 = rest * p ^ count
  | 0, rest, count => rfl
  | fuel + 1, rest, count => by
    rw [divideOut]
    by_cases h : rest % p = 0
    · rw [if_pos h, divideOut_spec p fuel, pow_succ, Nat.mul_comm (p ^ count), ← Nat.mul_assoc,
        Nat.div_mul_cancel (Nat.dvd_of_mod_eq_zero h)]
    · rw [if_neg h]

/-- **A suffix is found only for a divisor of its power of ten.** -/
theorem powerOfTenFactorSuffix_ok {m suffixLen endingCount : Nat}
    (h : powerOfTenFactorSuffix m = some (suffixLen, endingCount)) :
    m ∣ 10 ^ suffixLen ∧ endingCount = 10 ^ suffixLen / m := by
  unfold powerOfTenFactorSuffix at h
  have h2 := divideOut_spec 2 64 m 0
  generalize divideOut 2 64 m 0 = first at h h2
  obtain ⟨rest, a⟩ := first
  have h5 := divideOut_spec 5 64 rest 0
  dsimp only at h h2 h5
  generalize divideOut 5 64 rest 0 = second at h h5
  obtain ⟨last, b⟩ := second
  dsimp only at h h5
  split at h
  · cases h
  · rename_i hone
    split at h
    · cases h
    · split at h
      · cases h
      · cases h
        rw [not_not.1 hone, one_mul, pow_zero, mul_one] at h5
        rw [← h5, pow_zero, mul_one] at h2
        refine ⟨?_, rfl⟩
        rw [← h2, Nat.mul_comm, show (10 : Nat) = 2 * 5 from rfl, Nat.mul_pow]
        exact Nat.mul_dvd_mul (Nat.pow_dvd_pow 2 (Nat.le_max_left a b)) (Nat.pow_dvd_pow 5 (Nat.le_max_right a b))

theorem decimalBytes_digits (n width : Nat) : AllDigits (decimalBytes n width) := Decimal.allDigits_padded _ _

theorem lt_pow_natural (n : Nat) : n < 10 ^ (if n = 0 then 1 else Nat.log 10 n + 1) := by
  by_cases hn : n = 0
  · rw [if_pos hn, hn]
    decide
  · rw [if_neg hn]
    exact Nat.lt_pow_succ_log_self (by decide) n

theorem value_decimalBytes (n width : Nat) : value (decimalBytes n width) = n := by
  rw [decimalBytes, Decimal.value_padded]
  exact Nat.mod_eq_of_lt (Nat.lt_of_lt_of_le (lt_pow_natural n)
    (Nat.pow_le_pow_right (by decide) (Nat.le_max_right _ _)))

theorem length_decimalBytes {n width : Nat} (hwidth : 0 < width) (hn : n < 10 ^ width) :
    (decimalBytes n width).length = width := by
  rw [decimalBytes, Decimal.length_padded, Nat.max_eq_left]
  split
  · exact hwidth
  · rename_i hne
    exact Nat.log_lt_of_lt_pow hne hn

/-- A numeral is written without padding. -/
theorem decimalBytes_value {d : List Byte} (hd : Numeral d) : decimalBytes (value d) 0 = d := by
  rcases hd with rfl | hd
  · rfl
  · obtain ⟨hlo, hhi, hpos⟩ := hd.bounds
    have hlog : Nat.log 10 (value d) + 1 = d.length := by
      rw [Nat.log_eq_of_pow_le_of_lt_pow hlo (by rwa [Nat.sub_add_cancel hpos]), Nat.sub_add_cancel hpos]
    rw [decimalBytes, if_neg (Nat.ne_of_gt hd.pos), hlog, Nat.max_eq_right (Nat.zero_le _)]
    exact Decimal.padded_value hd.1

/-- **The last digits decide**: a numeral is a multiple if it is a short one itself, or ends in one padded
to the width. -/
theorem suffix_iff {m width threshold : Nat} (hm : 0 < m) (hwidth : 0 < width) (hdvd : m ∣ 10 ^ width)
    (hthreshold : threshold = 10 ^ (width - 1)) {d : List Byte} (hd : Numeral d) :
    (d ∈ ((((List.range (10 ^ width / m)).map (· * m)).filter fun ending => decide (ending < threshold)).map
      (decimalBytes · 0)) ∨
      ∃ u v, AllDigits u ∧ v ∈ ((List.range (10 ^ width / m)).map (· * m)).map (decimalBytes · width) ∧ u ++ v = d) ↔
      m ∣ value d := by
  have hending : ∀ {n}, n ∈ (List.range (10 ^ width / m)).map (· * m) ↔ m ∣ n ∧ n < 10 ^ width := by
    intro n
    rw [List.mem_map]
    constructor
    · rintro ⟨i, hi, rfl⟩
      exact ⟨Nat.dvd_mul_left m i, (Nat.lt_div_iff_mul_lt_of_dvd (Nat.ne_of_gt hm) hdvd).1 (List.mem_range.1 hi)⟩
    · rintro ⟨⟨i, rfl⟩, hlt⟩
      rw [Nat.mul_comm] at hlt ⊢
      exact ⟨i, List.mem_range.2 ((Nat.lt_div_iff_mul_lt_of_dvd (Nat.ne_of_gt hm) hdvd).2 hlt), rfl⟩
  constructor
  · rintro (hshort | ⟨u, v, _, hv, rfl⟩)
    · obtain ⟨n, hn, rfl⟩ := List.mem_map.1 hshort
      rw [value_decimalBytes]
      exact (hending.1 (List.mem_filter.1 hn).1).1
    · obtain ⟨n, hn, rfl⟩ := List.mem_map.1 hv
      obtain ⟨hn, hlt⟩ := hending.1 hn
      rw [Decimal.value_append, length_decimalBytes hwidth hlt, value_decimalBytes]
      exact Nat.dvd_add (Dvd.dvd.mul_left hdvd _) hn
  · intro h
    rcases Nat.lt_or_ge d.length width with hlen | hlen
    · -- too short for the padded ones
      have hlt : value d < threshold := by
        rw [hthreshold]
        exact Nat.lt_of_lt_of_le (Decimal.value_lt hd.digits) (Nat.pow_le_pow_right (by decide) (by omega))
      have hpow : threshold ≤ 10 ^ width := by
        rw [hthreshold]
        exact Nat.pow_le_pow_right (by decide) (Nat.sub_le _ _)
      exact .inl (List.mem_map.2 ⟨value d, List.mem_filter.2 ⟨hending.2 ⟨h, by omega⟩, decide_eq_true hlt⟩,
        decimalBytes_value hd⟩)
    · refine .inr ⟨d.take (d.length - width), d.drop (d.length - width), ?_, ?_, List.take_append_drop _ _⟩
      · exact fun b hb => hd.digits b (List.mem_of_mem_take hb)
      · have hdigits : AllDigits (d.drop (d.length - width)) := fun b hb => hd.digits b (List.mem_of_mem_drop hb)
        have hlast : (d.drop (d.length - width)).length = width := by
          rw [List.length_drop]
          omega
        have hlt := Decimal.value_lt hdigits
        rw [hlast] at hlt
        have hsplit : value d = value (d.take (d.length - width)) * 10 ^ width + value (d.drop (d.length - width)) := by
          have happend := Decimal.value_append (d.take (d.length - width)) (d.drop (d.length - width))
          rwa [List.take_append_drop, hlast] at happend
        rw [hsplit] at h
        refine List.mem_map.2 ⟨_, hending.2 ⟨(Nat.dvd_add_iff_right (Dvd.dvd.mul_left hdvd _)).2 h, hlt⟩, ?_⟩
        have heq : decimalBytes (value (d.drop (d.length - width))) width =
          Decimal.padded width (value (d.drop (d.length - width))) := by
          have hlength := length_decimalBytes hwidth hlt
          rw [decimalBytes, Decimal.length_padded] at hlength
          rw [decimalBytes, hlength]
        have hpadded := Decimal.padded_value hdigits
        rw [hlast] at hpadded
        rw [heq]
        exact hpadded

theorem suffixParts_accepts {short padded : List (List Byte)} {e : RefEngine}
    (h : suffixPartsEngine short padded = .ok e) (w : List Byte) :
    e.accepts w = true ↔ ∃ s u, (s = [] ∨ s = [0x2d]) ∧ (u ∈ short ∨ ∃ p v, AllDigits p ∧ v ∈ padded ∧ p ++ v = u) ∧
    s ++ u = w := by
  obtain ⟨shortEngine, hshort, h⟩ := bind_ok h
  obtain ⟨paddedEngine, hpadded, h⟩ := bind_ok h
  obtain ⟨digitStar, hdigits, h⟩ := bind_ok h
  obtain ⟨long, hlong, h⟩ := bind_ok h
  obtain ⟨body, hbody, h⟩ := bind_ok h
  obtain ⟨sign, hsign, h⟩ := bind_ok h
  rw [concatenate_engine h]
  simp only [optionalSign_accepts hsign, union_engine hbody, byteStringSet_engine hshort, concatenate_engine hlong,
    digitStar_accepts hdigits, byteStringSet_engine hpadded]

theorem suffixEngine_accepts {m suffixLen : Nat} {e : RefEngine}
    (h : suffixEngine suffixLen m (10 ^ suffixLen / m) = .ok e) (hm : 0 < m)
    (hdvd : m ∣ 10 ^ suffixLen) {d w : List Byte} (hd : Numeral d) (hw : w = d ∨ w = 0x2d :: d) :
    e.accepts w = true ↔ m ∣ value d := by
  unfold suffixEngine at h
  split at h
  · rename_i hzero
    rw [hzero, pow_zero, Nat.dvd_one] at hdvd
    rw [hdvd]
    exact ⟨fun _ => Nat.one_dvd _, fun _ => signedDigitStar_accepts h hd hw⟩
  · rename_i hpos
    obtain ⟨threshold, hthreshold, h⟩ := bind_ok h
    obtain ⟨endings, hendings, h⟩ := bind_ok h
    rw [mapM_checkedU64 hendings] at h
    have hdigits : ∀ u, (u ∈ ((((List.range (10 ^ suffixLen / m)).map (· * m)).filter fun ending =>
      decide (ending < threshold)).map (decimalBytes · 0)) ∨
        ∃ p v, AllDigits p ∧ v ∈ ((List.range (10 ^ suffixLen / m)).map (· * m)).map (decimalBytes · suffixLen) ∧
        p ++ v = u) → AllDigits u := by
      rintro u (hu | ⟨p, v, hp, hv, rfl⟩)
      · obtain ⟨n, _, rfl⟩ := List.mem_map.1 hu
        exact decimalBytes_digits n 0
      · obtain ⟨n, _, rfl⟩ := List.mem_map.1 hv
        exact Decimal.allDigits_append.2 ⟨hp, decimalBytes_digits n suffixLen⟩
    rw [suffixParts_accepts h, signed_iff hdigits hd hw]
    exact suffix_iff hm (Nat.pos_of_ne_zero hpos) hdvd (checkedU64_ok hthreshold) hd

/-! ### Multiples -/

/-- **The engine of a modulus decides divisibility.** -/
theorem multipleOfEngine_accepts {m : Nat} {e : RefEngine} (h : multipleOfEngine m = .ok e) {w : List Byte}
    (hw : JsonInteger w) :
    e.accepts w = true ↔ (m : Int) ∣ integerValue w := by
  obtain ⟨d, hd, hw⟩ := hw
  rw [dvd_integerValue hd hw]
  unfold multipleOfEngine at h
  split at h
  · cases h
  · rename_i hm
    have hpos := Nat.pos_of_ne_zero hm
    split at h
    · cases h
    · split at h
      · rename_i hone
        rw [hone]
        exact ⟨fun _ => Nat.one_dvd _, fun _ => signedDigitStar_accepts h hd hw⟩
      · split at h
        · exact remainderDfa_accepts h hpos hd hw
        · split at h
          · rename_i suffixLen endingCount hfactor
            obtain ⟨hdvd, rfl⟩ := powerOfTenFactorSuffix_ok hfactor
            exact suffixEngine_accepts h hpos hdvd hd hw
          · cases h

theorem jsonInteger_of_canonical {w : List Byte} (h : CanonicalInteger w) : JsonInteger w := by
  rcases h with rfl | ⟨d, hd, hw⟩
  · exact ⟨[0x30], .inl rfl, .inl rfl⟩
  · exact ⟨d, .inr hd, hw⟩

/-- What the library promises of the notations this development can read: a DFA that accepts the matches. -/
def Determinizes {σ : Type} (dense : List Char → Except CompileError (DenseDfa σ)) : Prop :=
  ∀ pattern r d, RegexText.read pattern = some r → dense pattern = .ok d → d.Lawful ∧ ∀ w, d.accepts w = true ↔
  w ∈ r.matches'

/-- **Integer `multipleOf` automata decide divisibility**: the engine of a modulus on every JSON integer, and the
engine of a range and a modulus by accepting exactly the canonical literals of the multiples in the range. -/
theorem multipleOf_exact :
    (∀ (m : Nat) (e : RefEngine), multipleOfEngine m = .ok e → ∀ w, JsonInteger w →
      (e.accepts w = true ↔ (m : Int) ∣ integerValue w)) ∧
    ∀ {σ : Type} [DecidableEq σ] (dense : List Char → Except CompileError (DenseDfa σ)), Determinizes dense →
      ∀ (minimum maximum : Option Int64) (m : Nat) (e : RefEngine),
      (∀ l u, minimum = some l → maximum = some u → l ≤ u) →
        compileIntegerMultiple dense minimum maximum m = some (.ok e) → ∀ w, e.accepts w = true ↔ CanonicalInteger w ∧
          (∀ l, minimum = some l → l.toInt ≤ integerValue w) ∧ (∀ u, maximum = some u → integerValue w ≤ u.toInt) ∧
          (m : Int) ∣ integerValue w := by
  refine ⟨fun m e h w hw => multipleOfEngine_accepts h hw, ?_⟩
  intro σ _ dense hdense minimum maximum m e hrange h w
  obtain ⟨pattern, r, hpattern, hread, hmatches⟩ := IntegerRegex.integerRegex_exact minimum maximum hrange
  rw [compileIntegerMultiple, hpattern, Option.map_some, Option.some.injEq] at h
  obtain ⟨range, hbuild, h⟩ := bind_ok h
  obtain ⟨multiple, hmultiple, h⟩ := bind_ok h
  obtain ⟨product, hproduct, h⟩ := bind_ok h
  obtain ⟨d, hd, hbuild⟩ := bind_ok hbuild
  obtain ⟨hlawful, haccepts⟩ := hdense pattern r d hread hd
  have hin : ∀ u, range.accepts u = true ↔ u ∈ r.matches' := by
    intro u
    rw [(DenseDfa.bfsMaterialize_exact hlawful hbuild).1, haccepts]
  rw [(ProductAutomaton.product_exact _ _ product e (.inl hproduct) h).1]
  have hall : Combinator.Accepts .all [range, multiple] w ↔ range.accepts w = true ∧ multiple.accepts w = true := by
    simp [Combinator.Accepts]
  rw [hall, hin, hmatches]
  constructor
  · rintro ⟨⟨hw, hlo, hhi⟩, hmul⟩
    exact ⟨hw, hlo, hhi, (multipleOfEngine_accepts hmultiple (jsonInteger_of_canonical hw)).1 hmul⟩
  · rintro ⟨hw, hlo, hhi, hdvd⟩
    exact ⟨⟨hw, hlo, hhi⟩, (multipleOfEngine_accepts hmultiple (jsonInteger_of_canonical hw)).2 hdvd⟩

/-- A DFA of the text `0`. -/
def zeroDfa : DenseDfa Nat where
  byteClass b := if b = 0x30 then 0 else 1
  start := some 0
  next s b := if s = 0 ∧ b = 0x30 then 1 else 2
  nextEoi s := if s = 1 then 3 else 2
  isDead s := decide (s = 2)
  isQuit _ := false
  isMatch s := decide (s = 3)

def zeroDense (pattern : List Char) : Except CompileError (DenseDfa Nat) :=
  if pattern = ['(', '?', ':', '0', ')'] then .ok zeroDfa else .error limit

theorem zeroDense_determinizes : Determinizes zeroDense := by
  intro pattern r d hread hd
  unfold zeroDense at hd
  split at hd
  · rename_i hpattern
    subst hpattern
    cases hd
    obtain ⟨q, hq, hzero⟩ := (RegexText.AltMeans.one
      (RegexText.AltMeans.one (RegexText.means_literal (c := '0') (by decide))).group).read
    have hr : r = q := Option.some.inj (hread.symm.trans hq)
    subst hr
    refine ⟨⟨fun s a b hab => ?_, fun s b hs => ?_, fun s hs => ?_⟩, fun w => ?_⟩
    · have hiff : a = 0x30 ↔ b = 0x30 := by
        simp only [zeroDfa] at hab
        split at hab <;> split at hab <;> simp_all
      simp only [zeroDfa, hiff]
    · simp only [zeroDfa, decide_eq_true_eq] at hs ⊢
      simp [hs]
    · simp only [zeroDfa, decide_eq_true_eq] at hs ⊢
      simp [hs]
    · have hdead : ∀ u : List Byte, u.foldl zeroDfa.next 2 = 2 := by
        intro u
        induction u with
        | nil => rfl
        | cons b u ih => exact ih
      rw [hzero]
      show zeroDfa.isMatch (zeroDfa.nextEoi (w.foldl zeroDfa.next 0)) = true ↔ w = [0x30]
      rcases w with _ | ⟨b, _ | ⟨c, w⟩⟩
      · simp [zeroDfa]
      · by_cases hb : b = 0x30
        · subst hb
          simp [zeroDfa]
        · simp [zeroDfa, hb]
      · have hstep : zeroDfa.next (zeroDfa.next 0 b) c = 2 := by
          simp only [zeroDfa]
          split <;> simp
        rw [List.foldl_cons, List.foldl_cons, hstep, hdead]
        simp [zeroDfa]
  · cases hd

/-- Twelve is a multiple of three, and zero the only one of two from zero to zero. -/
theorem multipleOf_exact_zero : (∃ e, multipleOfEngine 3 = .ok e ∧ e.accepts [0x31, 0x32] = true) ∧
    ∃ e, compileIntegerMultiple zeroDense (some 0) (some 0) 2 = some (.ok e) ∧ e.accepts [0x30] = true := by
  constructor
  · obtain ⟨e, h⟩ := exists_of_toOption (x := multipleOfEngine 3) (by decide +kernel)
    have hjson : JsonInteger [0x31, 0x32] :=
      ⟨[0x31, 0x32], .inr ⟨Decimal.allDigits_cons.2
        ⟨by decide, Decimal.allDigits_cons.2 ⟨by decide, Decimal.allDigits_nil⟩⟩, 0x31, [0x32], rfl,
        by decide⟩, .inl rfl⟩
    exact ⟨e, h, (multipleOf_exact.1 3 e h _ hjson).2 ⟨4, by decide⟩⟩
  · have hsome : ((compileIntegerMultiple zeroDense (some 0) (some 0) 2).bind Except.toOption).isSome = true := by
      decide +kernel
    obtain ⟨e, he⟩ := Option.isSome_iff_exists.1 hsome
    obtain ⟨x, hx, hxe⟩ := Option.bind_eq_some_iff.1 he
    cases x with
    | error err => cases hxe
    | ok engine =>
      refine ⟨engine, hx, (multipleOf_exact.2 zeroDense zeroDense_determinizes (some 0) (some 0) 2 engine ?_ hx _).2
        ⟨.inl rfl, fun l hl => ?_, fun u hu => ?_, ⟨0, rfl⟩⟩⟩
      · intro l u hl hu
        cases hl
        cases hu
        decide
      · cases hl
        decide
      · cases hu
        decide

end MultipleOf
end MaskForge
