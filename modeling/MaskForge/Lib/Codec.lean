import Mathlib
/-!
# Codec — byte formats that read back what they wrote

A codec writes a value as bytes and reads one off the front of a byte string.  What fits is read back whatever follows
it, and what was read is spelled in one way only.  Words are little-endian; vectors carry their length as eight bytes;
choices carry a tag.
-/
namespace Codec

/-- The `n` low bytes of a number, lowest first. -/
def leBytes : Nat → Nat → List UInt8
  | 0, _ => []
  | n + 1, v => UInt8.ofNat v :: leBytes n (v / 256)

def leVal : List UInt8 → Nat
  | [] => 0
  | b :: bs => b.toNat + 256 * leVal bs

@[simp] theorem length_leBytes : ∀ n v, (leBytes n v).length = n
  | 0, _ => rfl
  | n + 1, v => by rw [leBytes, List.length_cons, length_leBytes n]

theorem leVal_leBytes : ∀ n v, v < 256 ^ n → leVal (leBytes n v) = v
  | 0, v, h => by
    rw [Nat.pow_zero, Nat.lt_one_iff] at h
    rw [h]
    rfl
  | n + 1, v, h => by
    have hv : v / 256 < 256 ^ n := by
      rw [Nat.div_lt_iff_lt_mul (by decide), ← Nat.pow_succ]
      exact h
    rw [leBytes, leVal, leVal_leBytes n _ hv, UInt8.toNat_ofNat']
    omega

theorem leBytes_leVal : ∀ bs, leBytes bs.length (leVal bs) = bs
  | [] => rfl
  | b :: bs => by
    have hb := b.toNat_lt
    have hlow : UInt8.ofNat (b.toNat + 256 * leVal bs) = b := by
      apply UInt8.toNat_inj.1
      rw [UInt8.toNat_ofNat']
      omega
    have hhigh : (b.toNat + 256 * leVal bs) / 256 = leVal bs := by omega
    rw [List.length_cons, leVal, leBytes, hlow, hhigh, leBytes_leVal bs]

theorem leVal_lt : ∀ bs, leVal bs < 256 ^ bs.length
  | [] => Nat.one_pos
  | b :: bs => by
    have hb := b.toNat_lt
    have ih := leVal_lt bs
    rw [leVal, List.length_cons, Nat.pow_succ]
    omega

end Codec

/-- A byte format: what it writes, what it reads off the front, and the values it has room for. -/
structure Codec (α : Type) where
  enc : α → List UInt8
  dec : List UInt8 → Option (α × List UInt8)
  Fits : α → Prop
  dec_enc : ∀ a s, Fits a → dec (enc a ++ s) = some (a, s)
  enc_dec : ∀ s a t, dec s = some (a, t) → Fits a ∧ s = enc a ++ t

namespace Codec

variable {α β : Type}

/-- **What is written is not the beginning of anything else that is written.** -/
theorem cancel (c : Codec α) {a b : α} {s t : List UInt8} (ha : c.Fits a) (hb : c.Fits b)
    (h : c.enc a ++ s = c.enc b ++ t) : a = b ∧ s = t := by
  have hd := c.dec_enc a s ha
  rw [h, c.dec_enc b t hb, Option.some.injEq, Prod.mk.injEq] at hd
  exact ⟨hd.1.symm, hd.2.symm⟩

/-- A value read through another type's format, where that type has values it does not. -/
def narrow (c : Codec β) (f : α → β) (g : β → Option α) (hg : ∀ a, g (f a) = some a)
    (hf : ∀ a b, g b = some a → b = f a) : Codec α where
  enc a := c.enc (f a)
  dec s := (c.dec s).bind fun p => (g p.1).map (·, p.2)
  Fits a := c.Fits (f a)
  dec_enc a s h := by rw [c.dec_enc _ _ h, Option.bind_some, hg, Option.map_some]
  enc_dec s a t h := by
    obtain ⟨⟨b, t'⟩, hd, hm⟩ := Option.bind_eq_some_iff.1 h
    obtain ⟨a', ha, he⟩ := Option.map_eq_some_iff.1 hm
    obtain ⟨rfl, rfl⟩ := Prod.mk.inj he
    obtain ⟨hfit, hs⟩ := c.enc_dec s b t' hd
    rw [← hf _ _ ha]
    exact ⟨hfit, hs⟩

/-- A number in `n` bytes, where it fits. -/
def nat (n : Nat) : Codec Nat where
  enc v := leBytes n v
  dec s := if n ≤ s.length then some (leVal (s.take n), s.drop n) else none
  Fits v := v < 256 ^ n
  dec_enc v s h := by
    rw [if_pos (by rw [List.length_append, length_leBytes]; omega), List.take_left' (length_leBytes _ _),
      List.drop_left' (length_leBytes _ _), leVal_leBytes _ _ h]
  enc_dec s v t h := by
    split at h
    · rename_i hn
      have hlen : (s.take n).length = n := by
        rw [List.length_take]
        omega
      have hval := leVal_lt (s.take n)
      have hback := leBytes_leVal (s.take n)
      rw [hlen] at hval hback
      cases h
      exact ⟨hval, by rw [hback, List.take_append_drop]⟩
    · cases h

/-- A word of `n` bytes. -/
def word (n : Nat) (toN : α → Nat) (ofN : Nat → α) (hlt : ∀ a, toN a < 256 ^ n) (hof : ∀ a, ofN (toN a) = a)
    (hto : ∀ v, v < 256 ^ n → toN (ofN v) = v) : Codec α where
  enc a := (nat n).enc (toN a)
  dec s := ((nat n).dec s).map fun p => (ofN p.1, p.2)
  Fits _ := True
  dec_enc a s _ := by rw [(nat n).dec_enc _ _ (hlt a), Option.map_some, hof]
  enc_dec s a t h := by
    obtain ⟨⟨v, t'⟩, hd, he⟩ := Option.map_eq_some_iff.1 h
    obtain ⟨rfl, rfl⟩ := Prod.mk.inj he
    obtain ⟨hv, hs⟩ := (nat n).enc_dec s v t' hd
    rw [hto v hv]
    exact ⟨trivial, hs⟩

def u8 : Codec UInt8 := word 1 UInt8.toNat UInt8.ofNat (fun a => a.toNat_lt) (fun _ => UInt8.ofNat_toNat)
  (fun _ h => UInt8.toNat_ofNat_of_lt' h)

def u16 : Codec UInt16 := word 2 UInt16.toNat UInt16.ofNat (fun a => a.toNat_lt) (fun _ => UInt16.ofNat_toNat)
  (fun _ h => UInt16.toNat_ofNat_of_lt' h)

def u32 : Codec UInt32 := word 4 UInt32.toNat UInt32.ofNat (fun a => a.toNat_lt) (fun _ => UInt32.ofNat_toNat)
  (fun _ h => UInt32.toNat_ofNat_of_lt' h)

def u64 : Codec UInt64 := word 8 UInt64.toNat UInt64.ofNat (fun a => a.toNat_lt) (fun _ => UInt64.ofNat_toNat)
  (fun _ h => UInt64.toNat_ofNat_of_lt' h)

def i64 : Codec Int64 := u64.narrow Int64.toUInt64 (some ∘ Int64.ofUInt64) (fun _ => rfl)
  (fun _ _ h => by cases h; rfl)

/-- A fixed number of bytes. -/
def array (n : Nat) : Codec (Vector UInt8 n) where
  enc v := v.toList
  dec s := if h : n ≤ s.length then some (⟨(s.take n).toArray, by simpa using h⟩, s.drop n) else none
  Fits _ := True
  dec_enc v s _ := by
    have hn : n ≤ (v.toList ++ s).length := by simp
    rw [dif_pos hn]
    simp [Vector.toList]
  enc_dec s v t h := by
    split at h
    · cases h
      exact ⟨trivial, by simp [Vector.toList]⟩
    · cases h

/-- A sixteen-byte word. -/
def bits128 : Codec (BitVec 128) := word 16 BitVec.toNat (BitVec.ofNat 128) (fun a => a.isLt) (fun a => by simp)
  (fun v h => by rw [BitVec.toNat_ofNat]; exact Nat.mod_eq_of_lt h)

/-- An enumeration by the position of its constructor, in `k` bytes. -/
def enumeration (k n : Nat) (idx : α → Nat) (of : Nat → α) (hof : ∀ a, of (idx a) = a) (hlt : ∀ a, idx a < n)
    (hidx : ∀ v, v < n → idx (of v) = v) : Codec α :=
  (nat k).narrow idx (fun v => if v < n then some (of v) else none) (fun a => by rw [if_pos (hlt a), hof])
    (fun a v h => by
      split at h
      · rename_i hv
        cases h
        exact (hidx v hv).symm
      · cases h)

def bool : Codec Bool := enumeration 1 2 Bool.toNat (· == 1) (by decide) (by decide) (by decide)

def pair (c : Codec α) (d : Codec β) : Codec (α × β) where
  enc p := c.enc p.1 ++ d.enc p.2
  dec s := (c.dec s).bind fun p => (d.dec p.2).map fun q => ((p.1, q.1), q.2)
  Fits p := c.Fits p.1 ∧ d.Fits p.2
  dec_enc p s h := by rw [List.append_assoc, c.dec_enc _ _ h.1, Option.bind_some, d.dec_enc _ _ h.2, Option.map_some]
  enc_dec s p t h := by
    obtain ⟨⟨a, s'⟩, hc, hm⟩ := Option.bind_eq_some_iff.1 h
    obtain ⟨⟨b, t'⟩, hd, he⟩ := Option.map_eq_some_iff.1 hm
    obtain ⟨rfl, rfl⟩ := Prod.mk.inj he
    obtain ⟨ha, hs⟩ := c.enc_dec s a s' hc
    obtain ⟨hb, hs'⟩ := d.enc_dec s' b t' hd
    refine ⟨⟨ha, hb⟩, ?_⟩
    rw [List.append_assoc, ← hs', ← hs]

/-- A one-byte tag, then the value if there is one. -/
def opt (c : Codec α) : Codec (Option α) where
  enc
    | none => u8.enc 0
    | some a => u8.enc 1 ++ c.enc a
  dec s := (u8.dec s).bind fun p =>
    if p.1 = 0 then some (none, p.2) else if p.1 = 1 then (c.dec p.2).map fun q => (some q.1, q.2) else none
  Fits o := ∀ a, o = some a → c.Fits a
  dec_enc o s h := by
    cases o with
    | none => rw [u8.dec_enc _ _ trivial, Option.bind_some, if_pos rfl]
    | some a =>
      rw [List.append_assoc, u8.dec_enc _ _ trivial, Option.bind_some, if_neg (by decide : (1 : UInt8) ≠ 0), if_pos rfl,
        c.dec_enc _ _ (h a rfl), Option.map_some]
  enc_dec s o t h := by
    obtain ⟨⟨b, s'⟩, hu, hb⟩ := Option.bind_eq_some_iff.1 h
    obtain ⟨-, hs⟩ := u8.enc_dec s b s' hu
    split_ifs at hb with h0 h1
    · cases hb
      subst h0
      exact ⟨fun a ha => (Option.some_ne_none a ha.symm).elim, hs⟩
    · obtain ⟨⟨a, t'⟩, hc, he⟩ := Option.map_eq_some_iff.1 hb
      obtain ⟨rfl, rfl⟩ := Prod.mk.inj he
      obtain ⟨ha, hs'⟩ := c.enc_dec s' a t' hc
      subst h1
      refine ⟨fun a' he => by cases he; exact ha, ?_⟩
      rw [List.append_assoc, ← hs', ← hs]

/-- `n` values, one after the other. -/
def times (c : Codec α) : Nat → List UInt8 → Option (List α × List UInt8)
  | 0, s => some ([], s)
  | n + 1, s => (c.dec s).bind fun p => (times c n p.2).map fun q => (p.1 :: q.1, q.2)

theorem times_enc (c : Codec α) : ∀ (l : List α) (s : List UInt8), (∀ a ∈ l, c.Fits a) →
    c.times l.length (l.flatMap c.enc ++ s) = some (l, s)
  | [], s, _ => rfl
  | a :: l, s, h => by
    rw [List.length_cons, times, List.flatMap_cons, List.append_assoc, c.dec_enc _ _ (h a List.mem_cons_self),
      Option.bind_some, times_enc c l s (fun b hb => h b (List.mem_cons_of_mem _ hb)), Option.map_some]

theorem enc_times (c : Codec α) : ∀ (n : Nat) (s : List UInt8) (l : List α) (t : List UInt8),
    c.times n s = some (l, t) → l.length = n ∧ (∀ a ∈ l, c.Fits a) ∧ s = l.flatMap c.enc ++ t
  | 0, s, l, t, h => by
    cases h
    exact ⟨rfl, fun a ha => absurd ha List.not_mem_nil, rfl⟩
  | n + 1, s, l, t, h => by
    obtain ⟨⟨a, s'⟩, hc, hm⟩ := Option.bind_eq_some_iff.1 h
    obtain ⟨⟨l', t'⟩, hl, he⟩ := Option.map_eq_some_iff.1 hm
    obtain ⟨rfl, rfl⟩ := Prod.mk.inj he
    obtain ⟨ha, hs⟩ := c.enc_dec s a s' hc
    obtain ⟨hlen, hfit, hs'⟩ := enc_times c n s' l' t' hl
    refine ⟨by rw [List.length_cons, hlen], List.forall_mem_cons.2 ⟨ha, hfit⟩, ?_⟩
    rw [List.flatMap_cons, List.append_assoc, ← hs', ← hs]

/-- A length in eight bytes, then as many values. -/
def vec (c : Codec α) : Codec (List α) where
  enc l := u64.enc (UInt64.ofNat l.length) ++ l.flatMap c.enc
  dec s := (u64.dec s).bind fun p => c.times p.1.toNat p.2
  Fits l := l.length < 2 ^ 64 ∧ ∀ a ∈ l, c.Fits a
  dec_enc l s h := by
    rw [List.append_assoc, u64.dec_enc _ _ trivial, Option.bind_some, UInt64.toNat_ofNat_of_lt' h.1,
      times_enc c l s h.2]
  enc_dec s l t h := by
    obtain ⟨⟨n, s'⟩, hu, hl⟩ := Option.bind_eq_some_iff.1 h
    obtain ⟨-, hs⟩ := u64.enc_dec s n s' hu
    obtain ⟨hlen, hfit, hs'⟩ := enc_times c n.toNat s' l t hl
    refine ⟨⟨by rw [hlen]; exact n.toNat_lt, hfit⟩, ?_⟩
    rw [hlen, UInt64.ofNat_toNat, List.append_assoc, ← hs', ← hs]

/-- One arm of a choice, read after its tag. -/
def arm (c : Codec β) (mk : β → α) (s : List UInt8) : Option (α × List UInt8) :=
  (c.dec s).map fun p => (mk p.1, p.2)

theorem arm_enc (c : Codec β) (mk : β → α) {b : β} (s : List UInt8) (h : c.Fits b) :
    c.arm mk (c.enc b ++ s) = some (mk b, s) := by rw [arm, c.dec_enc _ _ h, Option.map_some]

theorem arm_some (c : Codec β) {mk : β → α} {s t : List UInt8} {a : α} (h : c.arm mk s = some (a, t)) :
    ∃ b, mk b = a ∧ c.Fits b ∧ s = c.enc b ++ t := by
  obtain ⟨⟨b, t'⟩, hd, he⟩ := Option.map_eq_some_iff.1 h
  obtain ⟨rfl, rfl⟩ := Prod.mk.inj he
  exact ⟨b, rfl, c.enc_dec s b t' hd⟩

/-- A choice: a tag in `k` bytes, then the arm it names. -/
def choice (k : Nat) (tag : α → Nat) (body : α → List UInt8) (arms : Nat → List UInt8 → Option (α × List UInt8))
    (Fits : α → Prop) (htag : ∀ a, tag a < 256 ^ k) (henc : ∀ a s, Fits a → arms (tag a) (body a ++ s) = some (a, s))
    (hdec : ∀ v s a t, arms v s = some (a, t) → tag a = v ∧ Fits a ∧ s = body a ++ t) : Codec α where
  enc a := (nat k).enc (tag a) ++ body a
  dec s := ((nat k).dec s).bind fun p => arms p.1 p.2
  Fits := Fits
  dec_enc a s h := by rw [List.append_assoc, (nat k).dec_enc _ _ (htag a), Option.bind_some, henc a s h]
  enc_dec s a t h := by
    obtain ⟨⟨v, s'⟩, hv, ha⟩ := Option.bind_eq_some_iff.1 h
    obtain ⟨-, hs⟩ := (nat k).enc_dec s v s' hv
    obtain ⟨rfl, hfit, hs'⟩ := hdec v s' a t ha
    refine ⟨hfit, ?_⟩
    rw [List.append_assoc, ← hs', ← hs]

/-! ### Room -/

/-- Every value fits. -/
def Total (c : Codec α) : Prop := ∀ a, c.Fits a

/-- No value takes more than `k` bytes. -/
def Within (c : Codec α) (k : Nat) : Prop := ∀ a, (c.enc a).length ≤ k

theorem Total.narrow {c : Codec β} {f : α → β} {g : β → Option α} {hg : ∀ a, g (f a) = some a}
    {hf : ∀ a b, g b = some a → b = f a} (h : c.Total) : (c.narrow f g hg hf).Total := fun a => h (f a)

theorem Within.narrow {c : Codec β} {f : α → β} {g : β → Option α} {hg : ∀ a, g (f a) = some a}
    {hf : ∀ a b, g b = some a → b = f a} {k : Nat} (h : c.Within k) : (c.narrow f g hg hf).Within k := fun a => h (f a)

theorem within_word {n : Nat} {toN : α → Nat} {ofN : Nat → α} {hlt : ∀ a, toN a < 256 ^ n}
    {hof : ∀ a, ofN (toN a) = a} {hto : ∀ v, v < 256 ^ n → toN (ofN v) = v} : (word n toN ofN hlt hof hto).Within n :=
  fun _ => Nat.le_of_eq (length_leBytes _ _)

theorem total_u8 : u8.Total := fun _ => trivial
theorem total_u16 : u16.Total := fun _ => trivial
theorem total_u32 : u32.Total := fun _ => trivial
theorem total_u64 : u64.Total := fun _ => trivial
theorem total_bits128 : bits128.Total := fun _ => trivial
theorem total_i64 : i64.Total := fun _ => trivial

theorem within_u8 : u8.Within 1 := within_word
theorem within_u16 : u16.Within 2 := within_word
theorem within_u32 : u32.Within 4 := within_word
theorem within_u64 : u64.Within 8 := within_word
theorem within_bits128 : bits128.Within 16 := within_word
theorem within_i64 : i64.Within 8 := within_u64.narrow

theorem total_enumeration {k n : Nat} {idx : α → Nat} {of : Nat → α} {hof : ∀ a, of (idx a) = a} {hlt : ∀ a, idx a < n}
    {hidx : ∀ v, v < n → idx (of v) = v} (h : n ≤ 256 ^ k) : (enumeration k n idx of hof hlt hidx).Total :=
  fun a => Nat.lt_of_lt_of_le (hlt a) h

theorem within_enumeration {k n : Nat} {idx : α → Nat} {of : Nat → α} {hof : ∀ a, of (idx a) = a} {hlt : ∀ a, idx a < n}
    {hidx : ∀ v, v < n → idx (of v) = v} : (enumeration k n idx of hof hlt hidx).Within k :=
  fun _ => Nat.le_of_eq (length_leBytes _ _)

theorem total_bool : bool.Total := total_enumeration (by decide)
theorem within_bool : bool.Within 1 := within_enumeration

theorem Total.pair {c : Codec α} {d : Codec β} (hc : c.Total) (hd : d.Total) : (c.pair d).Total :=
  fun p => ⟨hc p.1, hd p.2⟩

theorem Within.pair {c : Codec α} {d : Codec β} {j k : Nat} (hc : c.Within j) (hd : d.Within k) :
    (c.pair d).Within (j + k) := fun p => by
  have h1 := hc p.1
  have h2 := hd p.2
  simp only [Codec.pair, List.length_append]
  omega

theorem Total.opt {c : Codec α} (hc : c.Total) : (opt c).Total := fun _ a _ => hc a

theorem Within.opt {c : Codec α} {k : Nat} (hc : c.Within k) : (opt c).Within (k + 1)
  | none => by simp [Codec.opt, u8, word, nat]
  | some a => by
    have h := hc a
    simp only [Codec.opt, u8, word, nat, List.length_append, length_leBytes]
    omega

theorem Total.vec {c : Codec α} (hc : c.Total) {l : List α} (hl : l.length < 2 ^ 64) : (vec c).Fits l :=
  ⟨hl, fun a _ => hc a⟩

/-- The bytes of a vector, from the bytes of its elements. -/
theorem length_vec (c : Codec α) (l : List α) : ((vec c).enc l).length = 8 + (l.map fun a => (c.enc a).length).sum := by
  have hu : (u64.enc (UInt64.ofNat l.length)).length = 8 := length_leBytes _ _
  simp only [vec, List.length_append, hu, List.length_flatMap]

theorem Within.vec {c : Codec α} {k : Nat} (hc : c.Within k) {l : List α} {n : Nat} (hl : l.length ≤ n) :
    ((vec c).enc l).length ≤ 8 + n * k := by
  rw [length_vec]
  have hsum : (l.map fun a => (c.enc a).length).sum ≤ l.length * k := by
    have := List.sum_le_card_nsmul (l.map fun a => (c.enc a).length) k (by
      intro x hx
      obtain ⟨a, -, rfl⟩ := List.mem_map.1 hx
      exact hc a)
    simpa using this
  have := Nat.mul_le_mul_right k hl
  omega

end Codec
