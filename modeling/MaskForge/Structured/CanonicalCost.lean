import MaskForge.Structured.CanonicalDraft
import MaskForge.Structured.CanonicalUndo
/-!
# CanonicalCost — how much room an item needs

The canonical form of a number is at most three times as long as its text, so every byte of an item adds a bounded
amount to what its arena holds at its end, whether it is there already or still to be written.
-/
namespace MaskForge
namespace NumberForm

open Decimal (AllDigits)

/-! ### The length of a canonical form -/

theorem usizeDigitsLoop_length (n : Nat) (out : List Byte) : (usizeDigitsLoop n out).length ≤ n + 1 + out.length := by
  induction n, out using usizeDigitsLoop.induct with
  | case1 n out h =>
    rw [usizeDigitsLoop, if_pos h, List.length_cons]
    omega
  | case2 n out h ih =>
    rw [usizeDigitsLoop, if_neg h]
    rw [List.length_cons] at ih
    omega

theorem usizeDigits_length (n : Nat) : (usizeDigits n).length ≤ n + 1 := usizeDigitsLoop_length n []

/-- The carry adds one digit at most. -/
theorem sumLoop_length (a b : List Byte) (carry : Nat) (hcarry : carry ≤ 1) (ha : AllDigits a) (hb : AllDigits b) :
    (sumLoop a b carry).length ≤ max a.length b.length + 1 := by
  have htail : ∀ {l : List Byte}, AllDigits l → AllDigits l.tail := fun h b hb => h b (List.mem_of_mem_tail hb)
  induction a, b, carry using sumLoop.induct with
  | case1 a b carry h =>
    rw [sumLoop, if_pos h]
    exact Nat.zero_le _
  | case2 a b carry h sum ih =>
    have hsum : sum / 10 ≤ 1 := by
      have hx := headDigit_lt ha
      have hy := headDigit_lt hb
      show (headDigit a + headDigit b + carry) / 10 ≤ 1
      omega
    have hrest := ih hsum (htail ha) (htail hb)
    rw [sumLoop, if_neg h, List.length_cons]
    rw [List.length_tail, List.length_tail] at hrest
    by_cases hnil : a = [] ∧ b = []
    · obtain ⟨rfl, rfl⟩ := hnil
      have hzero : (headDigit [] + headDigit [] + carry) / 10 = 0 := by
        rw [show headDigit [] = 0 from rfl]
        omega
      rw [hzero, List.tail_nil, sumLoop, if_pos ⟨rfl, rfl, rfl⟩]
      exact Nat.le_refl 1
    · have hpos : 0 < a.length ∨ 0 < b.length := by
        rw [List.length_pos_iff, List.length_pos_iff]
        tauto
      have hle : (sumLoop a.tail b.tail ((headDigit a + headDigit b + carry) / 10)).length ≤
        max (a.length - 1) (b.length - 1) + 1 := hrest
      omega

theorem differenceLoop_length : ∀ (a b : List Byte) (borrow : Int), (differenceLoop a b borrow).length = a.length
  | [], _, _ => rfl
  | x :: a, b, borrow => by
    rw [differenceLoop]
    split <;> rw [List.length_cons, List.length_cons, differenceLoop_length]

theorem trimZeroes_length (digits : List Byte) : (trimZeroes digits).length ≤ digits.length :=
  (List.dropWhile_suffix _).length_le

theorem appendDifference_length (out a b : List Byte) : (appendDifference out a b).length ≤ out.length + a.length := by
  rw [appendDifference, List.length_append]
  have hle := trimZeroes_length (differenceLoop a.reverse b.reverse 0).reverse
  rw [List.length_reverse, differenceLoop_length, List.length_reverse] at hle
  omega

theorem appendAdjustedExponent_length (out : List Byte) (rawNegative deltaNegative : Bool) {raw delta : List Byte}
    (hraw : AllDigits raw) (hdelta : AllDigits delta) :
    (appendAdjustedExponent out rawNegative raw deltaNegative delta).1.length ≤ out.length +
    max raw.length delta.length + 1 := by
  have hr := trimZeroes_length raw
  have hd := trimZeroes_length delta
  unfold appendAdjustedExponent
  dsimp only
  split
  · rw [List.length_append]
    omega
  split
  · rw [List.length_append]
    omega
  split
  · have hsum := sumLoop_length (trimZeroes raw).reverse (trimZeroes delta).reverse 0 (Nat.zero_le 1)
      (allDigits_reverse.2 (Decimal.trimmed_dropWhile hraw).1)
        (allDigits_reverse.2 (Decimal.trimmed_dropWhile hdelta).1)
    rw [List.length_reverse, List.length_reverse] at hsum
    rw [appendSum, List.length_append, List.length_reverse]
    omega
  split
  · dsimp only
    omega
  · have hle := appendDifference_length out (trimZeroes raw) (trimZeroes delta)
    dsimp only
    omega
  · have hle := appendDifference_length out (trimZeroes delta) (trimZeroes raw)
    dsimp only
    omega

theorem exponentParts_length (exponent : Option (List Byte)) :
    (exponentParts exponent).2.length ≤ (exponent.getD []).length := by
  cases exponent with
  | none => exact Nat.zero_le _
  | some e =>
    cases e with
    | nil => exact Nat.zero_le _
    | cons b rest =>
      rw [exponentParts]
      split
      · exact Nat.le_succ _
      · split
        · exact Nat.le_succ _
        · exact Nat.le_refl _

/-- **A canonical form is at most three times as long as the text, and two digits.**  The code sets aside
room for more. -/
theorem finishNumber_length {raw : List Byte} {v : Form} (h : finishNumber raw = .ok v) :
    v.digits.length + v.expDigits.length ≤ 3 * raw.length + 2 := by
  unfold finishNumber at h
  obtain ⟨⟨record, scratch⟩, hnormalize, h⟩ := bind_ok h
  cases h
  obtain ⟨⟨negative, integer, fraction, exponent⟩, hparts, hnormalize⟩ := bind_ok hnormalize
  obtain ⟨hinteger, hfraction, tail, hraw, htail⟩ := numberParts_ok hparts
  dsimp only at hnormalize ⊢
  have hlen : integer.length + (fraction.getD []).length + (exponent.getD []).length ≤ raw.length := by
    rw [hraw]
    rcases htail with ⟨rfl, rfl⟩ | ⟨mark, rest, rfl, -, rfl⟩ <;> cases fraction <;> simp <;> omega
  obtain ⟨hkept, -, digits, k, hzeros, hdigits, -⟩ := mantissa_foldl (integer ++ fraction.getD [])
  generalize (integer ++ fraction.getD []).foldl pushMantissa (true, 0, []) = s at hnormalize hkept hzeros hdigits
  obtain ⟨leading, last, kept⟩ := s
  dsimp only at hnormalize hkept hzeros hdigits
  have hkeptlen : kept.length ≤ integer.length + (fraction.getD []).length := by
    rw [hkept, ← List.length_append]
    exact trimZeroes_length _
  split at hnormalize
  · cases hnormalize
    simp
  · have hparts := exponentParts_length exponent
    generalize exponentParts exponent = parts at hnormalize hparts
    obtain ⟨rawNegative, rawDigits⟩ := parts
    dsimp only at hnormalize hparts
    split at hnormalize
    · cases hnormalize
    · rename_i hgood
      rw [not_or, not_not] at hgood
      generalize hcount : max (kept.length - last) (fraction.getD []).length - min (kept.length - last)
        (fraction.getD []).length = count at hnormalize
      have htrim := trimZeroes_length rawDigits
      have hdelta := usizeDigits_length count
      have happend := appendAdjustedExponent_length (kept.take last) rawNegative
        (decide (kept.length - last < (fraction.getD []).length))
        (Decimal.trimmed_dropWhile hgood.2).1 (usizeDigits_spec count).1
      have hlast : last ≤ kept.length := by
        rw [hzeros, List.length_append, hdigits]
        exact Nat.le_add_right _ _
      have htake : (kept.take last).length = last := List.length_take_of_le hlast
      have hnum : (List.dropWhile (fun b => decide (b = 0x30)) rawDigits) = trimZeroes rawDigits := rfl
      rw [hnum, htake] at happend
      cases hnormalize
      dsimp only
      rw [List.length_take, List.length_drop, htake]
      omega

end NumberForm

/-! ### What is still to be written -/

/-- What a frame writes at most when it is closed: the form of a number and a node, the node of a string, children or
members and a node. -/
def Part.load : Part → Nat
  | .scalar _ text => 3 * text.length + 4
  | .str _ _ _ => 1
  | .array items => items.length + 1
  | .object _ members => members.length + 1

namespace Draft

def loadOf (parts : List Part) : Nat := (parts.map Part.load).sum

def load (d : Draft) : Nat := loadOf d.parts

/-- What a turn writes at most. -/
def spent (byte : Byte) (d : Draft) : Nat :=
  match d.parts with
  | [] => 0
  | .scalar phase text :: _ => if stepScalar phase byte = .done then 3 * text.length + 3 else 1
  | .str decoder _ _ :: _ => if byte = 0x22 ∧ decoder.atBoundary = true then 1 else 4
  | .array items :: _ => if byte = 0x5d then items.length + 1 else 0
  | .object phase members :: _ =>
    match phase with
    | .keyOrClose => if byte = 0x7d then members.length + 1 else 0
    | .colon _ | .value _ => 0

@[simp] theorem loadOf_cons (part : Part) (parts : List Part) : loadOf (part :: parts) = part.load + loadOf parts := rfl

/-- A value that is complete is one more item or member at most. -/
theorem load_attach {v : CanonicalValue} {below : List Part} {d : Draft} (h : attach v below = some d) :
    d.load ≤ loadOf below + 1 := by
  unfold attach at h
  split at h
  · cases h
    exact Nat.zero_le _
  · cases h
    simp only [load, loadOf_cons, Part.load, List.length_append, List.length_singleton]
    omega
  · cases h
    simp only [load, loadOf_cons, Part.load, List.length_append, List.length_singleton]
    omega
  · cases h

theorem load_attachKey {key : List Byte} {below : List Part} {d : Draft} (h : attachKey key below = some d) :
    d.load = loadOf below := by
  unfold attachKey at h
  split at h
  · cases h
    rfl
  · cases h

theorem used_some {o : Option Draft} {used' : Bool} {e : Draft} (h : used o = some (used', e)) :
    used' = true ∧ o = some e := by
  obtain ⟨d, rfl, heq⟩ := Option.map_eq_some_iff.1 h
  cases heq
  exact ⟨rfl, rfl⟩

/-- **What a turn writes and what is still to be written after it** are eight more than before it at most. -/
theorem turn_load {byte : Byte} {d e : Draft} {used : Bool} (h : turn byte d = some (used, e)) :
    d.spent byte + e.load ≤ d.load + 8 := by
  obtain ⟨parts, root⟩ := d
  cases parts with
  | nil => cases h
  | cons part below =>
  cases part with
  | scalar phase text =>
    change scalarTurn byte phase text below = some (used, e) at h
    show (if stepScalar phase byte = .done then 3 * text.length + 3 else 1) + e.load ≤
      loadOf (.scalar phase text :: below) + 8
    unfold scalarTurn at h
    split at h
    · rename_i hstep
      cases h
      simp [hstep, load, Part.load]
      omega
    · rename_i hstep
      cases h
      simp [hstep, load, Part.load]
      omega
    · rename_i hstep
      cases h
      simp [hstep, load, Part.load]
      omega
    · rename_i hstep
      cases h
      simp [hstep, load, Part.load]
      omega
    · rename_i hstep
      obtain ⟨v, -, h⟩ := Option.bind_eq_some_iff.1 h
      obtain ⟨d, hattach, h⟩ := Option.bind_eq_some_iff.1 h
      cases h
      have hle := load_attach hattach
      simp [hstep, Part.load]
      omega
    · cases h
  | str decoder text asKey =>
    change strTurn byte decoder text asKey below = some (used, e) at h
    show (if byte = 0x22 ∧ decoder.atBoundary = true then 1 else 4) + e.load ≤
      loadOf (.str decoder text asKey :: below) + 8
    unfold strTurn at h
    split at h
    · rename_i hclose
      obtain ⟨-, h⟩ := used_some h
      rw [if_pos hclose, loadOf_cons]
      split at h
      · have hle := load_attachKey h
        omega
      · have hle := load_attach h
        omega
    · rename_i hgoes
      rw [if_neg hgoes]
      split at h
      · cases h
        simp [load, Part.load]
        omega
      · cases h
        simp [load, Part.load]
        omega
      · cases h
  | array items =>
    change arrayTurn byte items below = some (used, e) at h
    show (if byte = 0x5d then items.length + 1 else 0) + e.load ≤ loadOf (.array items :: below) + 8
    unfold arrayTurn at h
    split at h
    · rename_i hskip
      have hne : byte ≠ 0x5d := by
        rintro rfl
        revert hskip
        decide
      cases h
      simp [hne, load, Part.load]
    split at h
    · rename_i hclose
      obtain ⟨-, h⟩ := used_some h
      have hle := load_attach h
      simp [hclose, Part.load]
      omega
    · rename_i hclose
      cases h
      simp [hclose, load, Part.valueStart, Part.load]
      omega
  | object phase members =>
    change objectTurn byte phase members below = some (used, e) at h
    cases phase with
    | keyOrClose =>
      show (if byte = 0x7d then members.length + 1 else 0) + e.load ≤ loadOf (.object .keyOrClose members :: below) + 8
      unfold objectTurn at h
      dsimp only at h
      split at h
      · rename_i hskip
        have hne : byte ≠ 0x7d := by
          rintro rfl
          revert hskip
          decide
        cases h
        simp [hne, load, Part.load]
      split at h
      · rename_i hquote
        cases h
        simp [hquote, load, Part.load]
        omega
      split at h
      · rename_i hclose
        obtain ⟨-, h⟩ := used_some h
        have hle := load_attach h
        simp [hclose, Part.load]
        omega
      · cases h
    | colon key =>
      show 0 + e.load ≤ loadOf (.object (.colon key) members :: below) + 8
      unfold objectTurn at h
      dsimp only at h
      split at h
      · cases h
        simp [load, Part.load]
      split at h
      · cases h
      · cases h
        simp [load, Part.load]
    | value key =>
      show 0 + e.load ≤ loadOf (.object (.value key) members :: below) + 8
      unfold objectTurn at h
      dsimp only at h
      split at h
      · cases h
        simp [load, Part.load]
      · cases h
        simp [load, Part.valueStart, Part.load]
        omega

end Draft

/-! ### What is written -/

/-- How much an arena holds. -/
def CanonicalArena.size (a : CanonicalArena) : Nat :=
  a.nodes.length + a.bytes.length + a.children.length + a.entries.length

theorem CanonicalArena.Full.size {a : CanonicalArena} (h : a.Full) : u32Size ≤ a.size := by
  unfold CanonicalArena.Full at h
  unfold CanonicalArena.size
  omega

namespace Building

variable {μ : Type} {room : Room μ} {budget : Nat}

/-- From this state so much is written at most, whether it fails or not. -/
def AddsAt {α : Type} (s : CanonicalSet μ) (n : Nat) (x : Building μ α) : Prop := (x s).2.arena.size ≤ s.arena.size + n

/-- So much is written at most. -/
def Adds {α : Type} (n : Nat) (x : Building μ α) : Prop := ∀ s, AddsAt s n x

section
variable {α β : Type} {m n : Nat} {x : Building μ α} {f : α → Building μ β} {s : CanonicalSet μ}

theorem AddsAt.bind (hx : AddsAt s m x) (hf : ∀ a, Adds n (f a)) : AddsAt s (m + n) (x >>= f) := by
  unfold AddsAt at *
  show (Attempt.bind x f s).2.arena.size ≤ _
  rw [Attempt.bind]
  split
  · rename_i a t h
    rw [h] at hx
    have hle : (f a t).2.arena.size ≤ t.arena.size + n := hf a t
    dsimp only at hx
    omega
  · rename_i e t h
    rw [h] at hx
    dsimp only at hx ⊢
    omega

theorem Adds.bind (hx : Adds m x) (hf : ∀ a, Adds n (f a)) : Adds (m + n) (x >>= f) := fun s => (hx s).bind hf

/-- A step that writes nothing, in front of others. -/
theorem Adds.then (hx : Adds 0 x) (hf : ∀ a, Adds n (f a)) : Adds n (x >>= f) := Nat.zero_add n ▸ hx.bind hf

/-- Steps that write nothing, behind another one. -/
theorem Adds.rest (hx : Adds n x) (hf : ∀ a, Adds 0 (f a)) : Adds n (x >>= f) := hx.bind hf

theorem Adds.le (hx : Adds m x) (h : m ≤ n) : Adds n x := fun s => (hx s).trans (Nat.add_le_add_left h _)

/-- What follows where the state is read. -/
theorem AddsAt.read {f : CanonicalSet μ → Building μ β} (h : AddsAt s n (f s)) : AddsAt s n (Attempt.get >>= f) := h

theorem Adds.read {f : CanonicalSet μ → Building μ β} (h : ∀ s, Adds n (f s)) : Adds n (Attempt.get >>= f) :=
  fun s => h s s

end

theorem adds_pure {α : Type} (a : α) : Adds 0 (pure a : Building μ α) := fun _ => Nat.le_refl _

theorem adds_lift {α : Type} (x : Except CanonicalError α) : Adds 0 (.lift x : Building μ α) := fun _ => Nat.le_refl _

theorem adds_ask {α : Type} (x : Attempt μ RoomError α) : Adds 0 (ask x) := fun _ => Nat.le_refl _

/-- What follows a request. -/
theorem AddsAt.afterAsk {α β : Type} {n : Nat} {x : Attempt μ RoomError α} {f : α → Building μ β} {s : CanonicalSet μ}
    (h : ∀ a m, AddsAt { s with mem := m } n (f a)) : AddsAt s n (ask x >>= f) := by
  show (Attempt.bind (ask x) f s).2.arena.size ≤ _
  rw [Attempt.bind]
  split
  · rename_i a t hx
    have ht : t = { s with mem := (x s.mem).2 } := (congrArg Prod.snd hx).symm
    exact ht ▸ h a _
  · rename_i e t hx
    have ht : t = { s with mem := (x s.mem).2 } := (congrArg Prod.snd hx).symm
    rw [ht]
    exact Nat.le_add_right _ _

theorem adds_modifyBuilder (f : CanonicalBuilder → CanonicalBuilder) : Adds (μ := μ) 0 (modifyBuilder f) :=
  fun _ => Nat.le_refl _

theorem adds_need {α : Type} (o : Option α) : Adds 0 (need budget o : Building μ α) := by
  cases o with
  | none => exact adds_lift _
  | some a => exact adds_pure a

theorem adds_checkedU32 (n : Nat) : Adds 0 (checkedU32 budget n : Building μ Nat) := by
  unfold checkedU32
  split
  · exact adds_pure n
  · exact adds_lift _

theorem adds_modifyArena {n : Nat} {f : CanonicalArena → CanonicalArena} (h : ∀ a, (f a).size ≤ a.size + n) :
    Adds (μ := μ) n (modifyArena f) := fun s => h s.arena

theorem adds_pushBytes (extra : List Byte) : Adds extra.length (pushBytes room budget extra) := by
  unfold pushBytes
  split
  · exact (adds_pure ()).le (Nat.zero_le _)
  · refine .read fun _ => .then (adds_ask _) fun _ => adds_modifyArena fun a => ?_
    simp only [CanonicalArena.size, List.length_append]
    omega

theorem adds_pushNode (node : CanonicalNode) : Adds 1 (pushNode room budget node) := by
  refine .read fun _ => .then (adds_ask _) fun _ => .then (adds_checkedU32 _) fun id =>
    .rest (adds_modifyArena fun a => ?_) fun _ => adds_pure id
  simp only [CanonicalArena.size, List.length_append, List.length_singleton]
  omega

theorem adds_pushChildrenBatch (items : List CanonicalId) :
    Adds items.length (pushChildrenBatch room budget items) := by
  refine .read fun _ => .then (adds_ask _) fun _ => adds_modifyArena fun a => ?_
  simp only [CanonicalArena.size, List.length_append]
  omega

theorem adds_pushEntriesBatch (items : List ObjectEntry) : Adds items.length (pushEntriesBatch room budget items) := by
  refine .read fun _ => .then (adds_ask _) fun _ => adds_modifyArena fun a => ?_
  simp only [CanonicalArena.size, List.length_append]
  omega

theorem adds_sortEntriesFrom (start : Nat) : Adds (μ := μ) 0 (modifyArena fun a => a.sortEntriesFrom start) := by
  refine adds_modifyArena fun a => ?_
  simp only [CanonicalArena.size, CanonicalArena.sortEntriesFrom, List.length_append, List.length_mergeSort,
    List.length_take, List.length_drop]
  omega

theorem adds_pushSpan (bytes : List Byte) : Adds bytes.length (pushSpan room budget bytes) :=
  .read fun _ => .then (adds_checkedU32 _) fun _ => .rest (adds_pushBytes _) fun _ => .then (adds_checkedU32 _) fun _ =>
    adds_pure _

/-- The number at the end of the bytes. -/
theorem adds_finishNumber {s : CanonicalSet μ} {start : Nat} (hstart : start ≤ s.arena.bytes.length) :
    AddsAt s (3 * (s.arena.bytes.drop start).length + 2) (finishNumber room budget start) := by
  refine .read ?_
  rw [if_neg (by omega)]
  dsimp only
  split
  · exact (adds_lift _).le (Nat.zero_le _) s
  · refine Adds.then (adds_ask _) (fun _ => ?_) s
    cases h : NumberForm.finishNumber (s.arena.bytes.drop start) with
    | error e => exact (adds_lift _).le (Nat.zero_le _)
    | ok form =>
      have hspans : ∀ node : ByteSpan → ByteSpan → CanonicalNode, Adds (form.digits.length + form.expDigits.length) (do
          let digits ← pushSpan room budget form.digits
          let expDigits ← pushSpan room budget form.expDigits
          return node digits expDigits) :=
        fun _ => (adds_pushSpan _).bind fun _ => .rest (adds_pushSpan _) fun _ => adds_pure _
      exact (hspans _).le (NumberForm.finishNumber_length h)

/-! ### What a turn writes -/

theorem adds_reserveRecord : Adds 0 (reserveRecord room budget) := .read fun _ => adds_ask _

theorem adds_record (entry : BuilderUndo) : Adds 0 (record room budget entry) :=
  .then adds_reserveRecord fun _ => adds_modifyBuilder _

theorem adds_setFrame (depth : Nat) (frame : BuildFrame) : Adds (μ := μ) 0 (setFrame depth frame) :=
  adds_modifyBuilder _

theorem adds_attachKey (key : ByteSpan) : Adds 0 (attachKey room budget key) := by
  refine .then (.read fun _ => adds_pure _) fun p => ?_
  split
  · exact .then (adds_record _) fun _ => adds_setFrame _ _
  · exact adds_lift _

theorem adds_completeValue (id : CanonicalId) : Adds 0 (completeValue room budget id) := by
  refine .then (.read fun _ => adds_pure _) fun p => ?_
  split
  · exact .then (adds_record _) fun _ => adds_modifyBuilder _
  · exact .then (adds_ask _) fun _ => .then (adds_record _) fun _ => adds_setFrame _ _
  · exact .then (adds_ask _) fun _ => .then (adds_record _) fun _ => .then (adds_record _) fun _ => adds_setFrame _ _
  · exact adds_lift _

theorem adds_pushItemBytes (bytes : List Byte) : Adds bytes.length (pushItemBytes room budget bytes) :=
  .then (adds_ask _) fun _ => adds_pushBytes _

theorem adds_pushItemNode (node : CanonicalNode) : Adds 1 (pushItemNode room budget node) :=
  .then (adds_ask _) fun _ => adds_pushNode _

theorem adds_textStart : Adds (μ := μ) 0 (textStart budget) := .read fun _ => adds_checkedU32 _

theorem adds_scalarStart (byte : Byte) (phase next : ScalarPhase) (start : Nat) :
    Adds 1 (scalarStart room budget byte phase next start) := by
  unfold scalarStart
  split
  · exact .rest (adds_pushItemBytes [byte]) fun _ => adds_pure _
  · exact .then adds_textStart fun _ => .rest (adds_pushItemBytes [byte]) fun _ => adds_pure _
  · exact (adds_need _).le (Nat.zero_le _)
  · exact (adds_pure _).le (Nat.zero_le _)

theorem adds_replaceScalar (depth : Nat) (phase : ScalarPhase) (start : Nat) (frame : BuildFrame) :
    Adds 0 (replaceScalar room budget depth phase start frame) :=
  .then (adds_record _) fun _ => .then (adds_setFrame _ _) fun _ => adds_pure _

/-- The node of a scalar whose text is the end of the bytes. -/
theorem adds_finishScalar {s : CanonicalSet μ} {phase : ScalarPhase} {start : Nat} {text : List Byte}
    (h : ∀ p, phase = .number p → start ≤ s.arena.bytes.length ∧ s.arena.bytes.drop start = text) :
    AddsAt s (3 * text.length + 2) (finishScalar room budget phase start) := by
  cases phase with
  | number p =>
    obtain ⟨hstart, rfl⟩ := h p rfl
    unfold finishScalar
    exact .afterAsk fun _ m => adds_finishNumber (s := { s with mem := m }) hstart
  | literalDone => exact Adds.le (.then (adds_ask _) fun _ => adds_need _) (Nat.zero_le _) s
  | beforeValue | trueAt | falseAt | nullAt => exact Adds.le (.then (adds_ask _) fun _ => adds_lift _) (Nat.zero_le _) s

theorem adds_closeStr (span : ByteSpan) (asKey : Bool) : Adds 1 (closeStr room budget span asKey) := by
  unfold closeStr
  split
  · exact (adds_attachKey _).le (Nat.zero_le _)
  · exact .rest (adds_pushItemNode _) fun _ => adds_completeValue _

theorem adds_takeDecoded (step : DecodeStep) : Adds 4 (takeDecoded room budget step) := by
  cases step with
  | cont => exact (adds_pure ()).le (Nat.zero_le _)
  | scalar c => 
    refine (adds_pushItemBytes _).le ?_
    rw [String.length_utf8EncodeChar]
    exact c.utf8Size_le_four
  | invalid => exact (adds_lift _).le (Nat.zero_le _)

theorem adds_strTurn (byte : Byte) (depth : Nat) (decoder : JsonStringDecoder) (start : Nat) (asKey : Bool) :
    Adds (if byte = 0x22 ∧ decoder.atBoundary = true then 1 else 4)
    (strTurn room budget byte depth decoder start asKey) := by
  unfold strTurn
  split
  · exact .then adds_textStart fun _ => .then (adds_record _) fun _ => .then (adds_modifyBuilder _) fun _ =>
      .rest (adds_closeStr _ _) fun _ => adds_pure _
  · exact .then (adds_setFrame _ _) fun _ => .rest (adds_takeDecoded _) fun _ => .then (adds_record _) fun _ =>
      adds_pure _

theorem adds_openFrame (frame : BuildFrame) : Adds 0 (openFrame room budget frame) :=
  .then (.read fun _ => adds_ask _) fun _ => .then (adds_record _) fun _ => adds_modifyBuilder _

theorem adds_closeFrame (frame : BuildFrame) (id : CanonicalId) : Adds 0 (closeFrame room budget frame id) :=
  .then (adds_modifyBuilder _) fun _ => .then (adds_modifyBuilder _) fun _ => .then (adds_completeValue _) fun _ =>
    adds_pure _

theorem adds_closeArray (children : List CanonicalId) :
    Adds (children.length + 1) (closeArray room budget children) := by
  refine .then adds_reserveRecord fun _ => .read fun _ => .then (adds_checkedU32 _) fun _ => .then
    (adds_ask _) fun _ => ?_
  refine (adds_pushChildrenBatch _).bind fun _ => .then (adds_checkedU32 _) fun _ => ?_
  exact .rest (adds_pushItemNode _) fun _ => adds_closeFrame _ _

theorem adds_closeObject (entries : List ObjectEntry) :
    Adds (entries.length + 1) (closeObject room budget entries) := by
  refine .then adds_reserveRecord fun _ => .read fun _ => .then (adds_checkedU32 _) fun _ => .then
    (adds_ask _) fun _ => ?_
  refine (adds_pushEntriesBatch _).bind fun _ => .then (adds_checkedU32 _) fun _ => ?_
  exact .rest (adds_pushItemNode _) fun _ => .then (adds_sortEntriesFrom _) fun _ => adds_closeFrame _ _

theorem adds_arrayTurn (byte : Byte) (children : List CanonicalId) :
    Adds (if byte = 0x5d then children.length + 1 else 0) (arrayTurn room budget byte children) := by
  unfold arrayTurn
  by_cases hskip : isWs byte = true ∨ byte = 0x2c
  · rw [if_pos hskip]
    exact (adds_pure true).le (Nat.zero_le _)
  rw [if_neg hskip]
  split
  · exact adds_closeArray _
  · exact .then (adds_openFrame _) fun _ => adds_pure _

theorem adds_openKey : Adds 0 (openKey room budget) :=
  .then adds_textStart fun _ => .then (adds_openFrame _) fun _ => adds_pure _

theorem adds_objectTurn (byte : Byte) (depth : Nat) (phase : ObjectBuildPhase) (entries : List ObjectEntry) :
    Adds (match phase with
      | .keyOrClose => if byte = 0x7d then entries.length + 1 else 0
      | .colon _ | .value _ => 0) (objectTurn room budget byte depth phase entries) := by
  unfold objectTurn
  cases phase with
  | keyOrClose =>
    dsimp only
    by_cases hskip : isWs byte = true ∨ byte = 0x2c
    · rw [if_pos hskip]
      exact (adds_pure true).le (Nat.zero_le _)
    rw [if_neg hskip]
    by_cases hquote : byte = 0x22
    · rw [if_pos hquote]
      exact adds_openKey.le (Nat.zero_le _)
    rw [if_neg hquote]
    split
    · exact adds_closeObject _
    · exact adds_lift _
  | colon key =>
    dsimp only
    split
    · exact adds_pure _
    split
    · exact adds_lift _
    · exact .then (adds_record _) fun _ => .then (adds_setFrame _ _) fun _ => adds_pure _
  | value key =>
    dsimp only
    split
    · exact adds_pure _
    · exact .then (adds_openFrame _) fun _ => adds_pure _

end Building
end MaskForge
