import MaskForge.Lib.Codec
import MaskForge.Ir.WellFormed
/-!
# Codecs — byte formats of the IR's small types

The wire format and the content hash write the same choices with tags of different widths; the width and the format of
a child are parameters here.
-/
namespace MaskForge
namespace Ir

open Codec

variable {δ : Type}

/-- Bytes with their length. -/
def bytesCodec : Codec (List Byte) := vec u8

def charsetCodec (k : Nat) : Codec Charset :=
  enumeration k 3 Charset.ctorIdx Charset.ofNat Charset.ofNat_ctorIdx (by intro a; cases a <;> decide) (by decide)

def closureCodec (k : Nat) : Codec ObjectClosure :=
  enumeration k 4 ObjectClosure.ctorIdx ObjectClosure.ofNat ObjectClosure.ofNat_ctorIdx
    (by intro a; cases a <;> decide) (by decide)

def unsupportedPolicyCodec (k : Nat) : Codec UnsupportedPolicy :=
  enumeration k 1 UnsupportedPolicy.ctorIdx UnsupportedPolicy.ofNat UnsupportedPolicy.ofNat_ctorIdx
    (by intro a; cases a; decide) (by decide)

def unevaluatedKindCodec (k : Nat) : Codec UnevaluatedKind :=
  enumeration k 2 UnevaluatedKind.ctorIdx UnevaluatedKind.ofNat UnevaluatedKind.ofNat_ctorIdx
    (by intro a; cases a <;> decide) (by decide)

def reasonCodec (k : Nat) : Codec UnsupportedReason :=
  enumeration k 26 UnsupportedReason.ctorIdx UnsupportedReason.ofNat UnsupportedReason.ofNat_ctorIdx
    (by intro a; cases a <;> decide) (by decide)

/-- A word has room for a few tags. -/
theorem tag_fits {k v : Nat} (hk : k ≠ 0) (hv : v < 256) : v < 256 ^ k :=
  Nat.lt_of_lt_of_le hv (Nat.le_self_pow hk 256)

section
variable (k : Nat) (hk : k ≠ 0) (c : Codec δ)

def itemsCodec : Codec (ItemsPolicy δ) :=
  choice k ItemsPolicy.ctorIdx
    (fun
      | .schema d => c.enc d
      | .allowAny => [])
    (fun
      | 0 => c.arm .schema
      | 1 => fun s => some (.allowAny, s)
      | _ => fun _ => none)
    (fun p => ∀ d ∈ p.refs, c.Fits d)
    (by intro a; cases a <;> exact tag_fits hk (Nat.le_of_ble_eq_true rfl))
    (by
      intro a s h
      cases a with
      | schema d => exact c.arm_enc _ s (h d (List.mem_singleton.2 rfl))
      | allowAny => rfl)
    (by
      intro v s a t h
      split at h
      · obtain ⟨d, rfl, hd, hs⟩ := c.arm_some h
        exact ⟨rfl, by simpa [ItemsPolicy.refs] using hd, hs⟩
      · cases h
        exact ⟨rfl, by simp [ItemsPolicy.refs], rfl⟩
      · cases h)

def additionalCodec : Codec (AdditionalPolicy δ) :=
  choice k AdditionalPolicy.ctorIdx
    (fun
      | .schema d => c.enc d
      | _ => [])
    (fun
      | 0 => fun s => some (.forbid, s)
      | 1 => fun s => some (.allowAny, s)
      | 2 => c.arm .schema
      | 3 => fun s => some (.open, s)
      | _ => fun _ => none)
    (fun p => ∀ d ∈ p.refs, c.Fits d)
    (by intro a; cases a <;> exact tag_fits hk (Nat.le_of_ble_eq_true rfl))
    (by
      intro a s h
      cases a with
      | schema d => exact c.arm_enc _ s (h d (List.mem_singleton.2 rfl))
      | forbid | allowAny | «open» => rfl)
    (by
      intro v s a t h
      split at h
      · cases h
        exact ⟨rfl, by simp [AdditionalPolicy.refs], rfl⟩
      · cases h
        exact ⟨rfl, by simp [AdditionalPolicy.refs], rfl⟩
      · obtain ⟨d, rfl, hd, hs⟩ := c.arm_some h
        exact ⟨rfl, by simpa [AdditionalPolicy.refs] using hd, hs⟩
      · cases h
        exact ⟨rfl, by simp [AdditionalPolicy.refs], rfl⟩
      · cases h)

def containsPolicyCodec : Codec (ContainsPolicy δ) :=
  choice k ContainsPolicy.ctorIdx
    (fun
      | .schema d => c.enc d
      | _ => [])
    (fun
      | 0 => fun s => some (.never, s)
      | 1 => fun s => some (.always, s)
      | 2 => c.arm .schema
      | _ => fun _ => none)
    (fun p => ∀ d ∈ p.refs, c.Fits d)
    (by intro a; cases a <;> exact tag_fits hk (Nat.le_of_ble_eq_true rfl))
    (by
      intro a s h
      cases a with
      | schema d => exact c.arm_enc _ s (h d (List.mem_singleton.2 rfl))
      | never | always => rfl)
    (by
      intro v s a t h
      split at h
      · cases h
        exact ⟨rfl, by simp [ContainsPolicy.refs], rfl⟩
      · cases h
        exact ⟨rfl, by simp [ContainsPolicy.refs], rfl⟩
      · obtain ⟨d, rfl, hd, hs⟩ := c.arm_some h
        exact ⟨rfl, by simpa [ContainsPolicy.refs] using hd, hs⟩
      · cases h)

def containsCodec : Codec (ContainsConstraint δ) :=
  ((containsPolicyCodec k hk c).pair (u32.pair (opt u32))).narrow (fun q => (q.policy, q.min, q.max))
    (fun p => some ⟨p.1, p.2.1, p.2.2⟩) (fun _ => rfl) (fun _ _ h => by cases h; rfl)

end

/-- The digits, the scale and the exclusion of a decimal bound. -/
def decimalBoundCodec : Codec DecimalBound := bits128.pair (u32.pair bool)

end Ir
end MaskForge
