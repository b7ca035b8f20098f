import Mathlib.Computability.Language
/-!
# ByteRegex — regular expressions over bytes, as text and as languages

The notation of byte regexes: classes of bytes and ranges, escapes, groups of alternatives, stars and counts.  A text is
cut into symbols and the symbols are read with a stack of open groups.  Where no star stands, an expression has finitely
many words of classes, and its language is read off them.
-/
namespace MaskForge.ByteRegex

open scoped Computability

/-- The ranges of a class. -/
abbrev Ranges := List (Nat × Nat)

def Ranges.Has (c : Ranges) (b : UInt8) : Prop := ∃ r ∈ c, r.1 ≤ b.toNat ∧ b.toNat ≤ r.2

inductive Expr where
  | empty
  | cls (c : Ranges)
  | seq (a b : Expr)
  | alt (a b : Expr)
  | star (a : Expr)
  | times (a : Expr) (n : Nat)
  deriving DecidableEq, Repr

/-- **The language of an expression.** -/
def Expr.lang : Expr → Language UInt8
  | empty => 1
  | cls c => {w | ∃ b, w = [b] ∧ c.Has b}
  | seq a b => a.lang * b.lang
  | alt a b => a.lang + b.lang
  | star a => a.lang∗
  | times a n => a.lang ^ n

/-! ### Symbols -/

inductive Symbol where
  | cls (c : Ranges)
  | opening
  | closing
  | bar
  | star
  | times (n : Nat)
  deriving DecidableEq, Repr

def hexValue (c : Char) : Option Nat :=
  if '0' ≤ c ∧ c ≤ '9' then some (c.toNat - '0'.toNat)
  else if 'a' ≤ c ∧ c ≤ 'f' then some (c.toNat - 'a'.toNat + 10)
  else if 'A' ≤ c ∧ c ≤ 'F' then some (c.toNat - 'A'.toNat + 10)
  else none

/-- What stands for itself. -/
def isPlain (c : Char) : Bool := c.isAlphanum || c == '"' || c == '/'

/-- One byte: a character that stands for itself, a byte by its number, or an escaped character. -/
def readByte : List Char → Option (Nat × List Char)
  | [] => none
  | c :: s =>
    if c = '\\' then
      match s with
      | 'x' :: hi :: lo :: s => do some (16 * (← hexValue hi) + (← hexValue lo), s)
      | c :: s => if c.isAlphanum then none else some (c.toNat, s)
      | [] => none
    else if isPlain c then some (c.toNat, s)
    else none

/-- The ranges of a class, up to its bracket. -/
def readClass : Nat → List Char → Option (Ranges × List Char)
  | 0, _ => none
  | _ + 1, ']' :: s => some ([], s)
  | fuel + 1, s => do
    let (lo, s) ← readByte s
    match s with
    | '-' :: s => do
      let (hi, s) ← readByte s
      let (ranges, s) ← readClass fuel s
      some ((lo, hi) :: ranges, s)
    | s => do
      let (ranges, s) ← readClass fuel s
      some ((lo, lo) :: ranges, s)

/-- The number up to a brace. -/
def readCount : Nat → List Char → Option (Nat × List Char)
  | n, '}' :: s => some (n, s)
  | n, c :: s => if c.isDigit then readCount (10 * n + (c.toNat - '0'.toNat)) s else none
  | _, [] => none

/-- The symbols of a text; `fuel` bounds their number. -/
def symbols : Nat → List Char → Option (List Symbol)
  | _, [] => some []
  | 0, _ => none
  | fuel + 1, '(' :: '?' :: ':' :: s => (symbols fuel s).map (.opening :: ·)
  | fuel + 1, ')' :: s => (symbols fuel s).map (.closing :: ·)
  | fuel + 1, '|' :: s => (symbols fuel s).map (.bar :: ·)
  | fuel + 1, '*' :: s => (symbols fuel s).map (.star :: ·)
  | fuel + 1, '{' :: s => do
    let (n, s) ← readCount 0 s
    (symbols fuel s).map (.times n :: ·)
  | fuel + 1, '[' :: s => do
    let (c, s) ← readClass (s.length + 1) s
    (symbols fuel s).map (.cls c :: ·)
  | fuel + 1, s => do
    let (b, s) ← readByte s
    (symbols fuel s).map (.cls [(b, b)] :: ·)

/-! ### Expressions -/

/-- An open group: its finished alternatives and the pieces of the one being read, both newest first. -/
structure Group where
  done : List Expr
  pieces : List Expr

def seqs : List Expr → Expr
  | [] => .empty
  | [a] => a
  | a :: b :: rest => .seq a (seqs (b :: rest))

def alts : List Expr → Expr
  | [] => .empty
  | [a] => a
  | a :: b :: rest => .alt a (alts (b :: rest))

def Group.close (g : Group) : Expr := alts (seqs g.pieces.reverse :: g.done).reverse

def Group.push (g : Group) (a : Expr) : Group := { g with pieces := a :: g.pieces }

/-- A repetition applies to the piece before it. -/
def Group.repeated (g : Group) (f : Expr → Expr) : Option Group :=
  match g.pieces with
  | [] => none
  | a :: rest => some { g with pieces := f a :: rest }

/-- The symbols are read with the group at hand and the groups around it. -/
def readGroups : List Symbol → Group → List Group → Option Expr
  | [], g, [] => some g.close
  | [], _, _ :: _ => none
  | .cls c :: s, g, outer => readGroups s (g.push (.cls c)) outer
  | .opening :: s, g, outer => readGroups s ⟨[], []⟩ (g :: outer)
  | .closing :: s, g, o :: outer => readGroups s (o.push g.close) outer
  | .closing :: _, _, [] => none
  | .bar :: s, g, outer => readGroups s ⟨seqs g.pieces.reverse :: g.done, []⟩ outer
  | .star :: s, g, outer => (g.repeated .star).bind fun g => readGroups s g outer
  | .times n :: s, g, outer => (g.repeated (.times · n)).bind fun g => readGroups s g outer

/-- The expression a text is the notation of. -/
def read (s : List Char) : Option Expr := (symbols s.length s).bind fun s => readGroups s ⟨[], []⟩ []

/-! ### Words of classes -/

def joined (xs ys : List (List Ranges)) : List (List Ranges) := xs.flatMap fun x => ys.map (x ++ ·)

def power (xs : List (List Ranges)) : Nat → List (List Ranges)
  | 0 => [[]]
  | n + 1 => joined xs (power xs n)

/-- The words of classes of an expression without stars. -/
def Expr.words : Expr → Option (List (List Ranges))
  | empty => some [[]]
  | cls c => some [[c]]
  | seq a b => do some (joined (← a.words) (← b.words))
  | alt a b => do some ((← a.words) ++ (← b.words))
  | star _ => none
  | times a n => do some (power (← a.words) n)

/-- The bytes some words of classes stand for. -/
def langOf (ws : List (List Ranges)) : Language UInt8 := {w | ∃ cs ∈ ws, List.Forall₂ Ranges.Has cs w}

theorem mem_langOf {w : List UInt8} {ws : List (List Ranges)} :
    w ∈ langOf ws ↔ ∃ cs ∈ ws, List.Forall₂ Ranges.Has cs w := Iff.rfl

@[simp] theorem mem_langOf_nil (w : List UInt8) : ¬ w ∈ langOf [] := by
  rintro ⟨_, h, _⟩
  cases h

theorem langOf_append (xs ys : List (List Ranges)) : langOf (xs ++ ys) = langOf xs + langOf ys := by
  ext w
  simp only [Language.mem_add, mem_langOf, List.mem_append, or_and_right, exists_or]

theorem langOf_nil : langOf [[]] = 1 := by
  ext w
  simp [mem_langOf, Language.mem_one]

/-- Bytes for two words one after the other split between them. -/
theorem has_append {x y : List Ranges} {w : List UInt8} : List.Forall₂ Ranges.Has (x ++ y) w ↔
    ∃ u v, List.Forall₂ Ranges.Has x u ∧ List.Forall₂ Ranges.Has y v ∧ u ++ v = w := by
  constructor
  · intro h
    have hu := (List.forall₂_take_append _ _ _ h.flip).flip
    have hv := (List.forall₂_drop_append _ _ _ h.flip).flip
    exact ⟨w.take x.length, w.drop x.length, hu, hv, List.take_append_drop _ _⟩
  · rintro ⟨u, v, hu, hv, rfl⟩
    exact List.rel_append hu hv

theorem langOf_joined (xs ys : List (List Ranges)) : langOf (joined xs ys) = langOf xs * langOf ys := by
  ext w
  simp only [Language.mem_mul, mem_langOf, joined, List.mem_flatMap, List.mem_map]
  constructor
  · rintro ⟨_, ⟨x, hx, y, hy, rfl⟩, h⟩
    obtain ⟨u, v, hu, hv, hw⟩ := has_append.1 h
    exact ⟨u, ⟨x, hx, hu⟩, v, ⟨y, hy, hv⟩, hw⟩
  · rintro ⟨u, ⟨x, hx, hu⟩, v, ⟨y, hy, hv⟩, hw⟩
    exact ⟨_, ⟨x, hx, y, hy, rfl⟩, has_append.2 ⟨u, v, hu, hv, hw⟩⟩

theorem langOf_power (xs : List (List Ranges)) : ∀ n, langOf (power xs n) = langOf xs ^ n
  | 0 => langOf_nil
  | n + 1 => by rw [power, langOf_joined, langOf_power xs n, pow_succ']

/-- **The language of an expression without stars is that of its words.** -/
theorem Expr.lang_eq_langOf : ∀ {e : Expr} {ws : List (List Ranges)}, e.words = some ws → e.lang = langOf ws
  | .empty, ws, h => by
    cases h
    exact langOf_nil.symm
  | .cls c, ws, h => by
    cases h
    ext w
    constructor
    · rintro ⟨b, rfl, hb⟩
      exact ⟨[c], List.mem_singleton.2 rfl, .cons hb .nil⟩
    · rintro ⟨cs, hcs, h⟩
      rw [List.mem_singleton.1 hcs] at h
      cases h with
      | cons hb h =>
        cases h
        exact ⟨_, rfl, hb⟩
  | .seq a b, ws, h => by
    obtain ⟨xs, hx, h⟩ := Option.bind_eq_some_iff.1 h
    obtain ⟨ys, hy, h⟩ := Option.bind_eq_some_iff.1 h
    cases h
    rw [lang, lang_eq_langOf hx, lang_eq_langOf hy, langOf_joined]
  | .alt a b, ws, h => by
    obtain ⟨xs, hx, h⟩ := Option.bind_eq_some_iff.1 h
    obtain ⟨ys, hy, h⟩ := Option.bind_eq_some_iff.1 h
    cases h
    rw [lang, lang_eq_langOf hx, lang_eq_langOf hy, langOf_append]
  | .times a n, ws, h => by
    obtain ⟨xs, hx, h⟩ := Option.bind_eq_some_iff.1 h
    cases h
    rw [lang, lang_eq_langOf hx, langOf_power]

/-- The words a starred expression repeats. -/
def Expr.starWords : Expr → Option (List (List Ranges))
  | star a => a.words
  | _ => none

theorem Expr.lang_eq_star {e : Expr} {ws : List (List Ranges)} (h : e.starWords = some ws) : e.lang = (langOf ws)∗ := by
  cases e with
  | star a => rw [lang, lang_eq_langOf h]
  | _ => cases h

/-! ### Classes -/

@[simp] theorem Ranges.has_nil (b : UInt8) : ¬ Ranges.Has [] b := by
  rintro ⟨_, h, _⟩
  cases h

@[simp] theorem Ranges.has_cons (r : Nat × Nat) (c : Ranges) (b : UInt8) :
    Ranges.Has (r :: c) b ↔ (r.1 ≤ b.toNat ∧ b.toNat ≤ r.2) ∨ Ranges.Has c b := by
  simp only [Ranges.Has, List.mem_cons, exists_eq_or_imp]

theorem mem_langOf_cons {w : List UInt8} {cs : List Ranges} {ws : List (List Ranges)} :
    w ∈ langOf (cs :: ws) ↔ List.Forall₂ Ranges.Has cs w ∨ w ∈ langOf ws := by
  simp only [mem_langOf, List.mem_cons, exists_eq_or_imp]

end MaskForge.ByteRegex
