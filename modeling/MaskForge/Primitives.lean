import Mathlib
/-!
# Primitives — ids, bytes and the structured compile error

The source's id newtypes (`StateId`, `TokenId`, `ByteClassId`, `TrieNodeId`, `NodeId`) are dense indices that never
wrap; here they are `Nat`.  A byte stays a byte.  `CompileError` carries what the source's constructor takes: its code,
its stage and its message, word for word.
-/
namespace MaskForge

abbrev Byte := UInt8

/-- The error codes the modelled functions raise. -/
inductive ErrorCode where
  | artifactOutOfBounds
  | artifactMismatch
  | emptyToken
  | internalLimitExceeded
  | malformed
  | malformedTokenizer
  | nonMonotoneRecursion
  | unsupported
  | tooManyDiagnostics
  deriving DecidableEq, Repr

/-- The compile stage an error names. -/
inductive Stage where
  | l2
  | l3
  | l4Bind
  | artifactValidate
  | vocabBuild
  deriving DecidableEq, Repr

structure CompileError where
  code : ErrorCode
  stage : Stage
  message : String
  deriving DecidableEq, Repr

/-- `u32::MAX + 1`, the width of every id newtype but the byte class. -/
def u32Size : Nat := 2 ^ 32

/-- `usize::MAX`, on a 64-bit target. -/
def usizeMax : Nat := 2 ^ 64 - 1

/-- `u64::MAX`. -/
def u64Max : Nat := 2 ^ 64 - 1

/-- `usize::saturating_add`. -/
def satAdd (a b : Nat) : Nat := min (a + b) usizeMax

theorem satAdd_eq {a b : Nat} (h : a + b ≤ usizeMax) : satAdd a b = a + b := Nat.min_eq_left h

/-- `u32::try_from`, failing where the source's `map_err` fails. -/
def checkedU32 (err : CompileError) (n : Nat) : Except CompileError Nat :=
  if n < u32Size then .ok n else .error err

/-- What a bind that returned did: its first half returned, and its second on that. -/
theorem bind_ok {ε α β : Type} {x : Except ε α} {f : α → Except ε β} {b : β} (h : (x >>= f) = .ok b) :
    ∃ a, x = .ok a ∧ f a = .ok b := by
  cases x with
  | error e => cases h
  | ok a => exact ⟨a, rfl, h⟩

/-- Where a bind failed: in its first half, or in its second on what the first returned. -/
theorem bind_error {ε α β : Type} {x : Except ε α} {f : α → Except ε β} {err : ε} (h : (x >>= f) = .error err) :
    x = .error err ∨ ∃ a, x = .ok a ∧ f a = .error err := by
  cases x with
  | error e =>
    cases h
    exact Or.inl rfl
  | ok a => exact Or.inr ⟨a, rfl, h⟩

theorem exists_of_toOption {α : Type} {x : Except CompileError α} (h : x.toOption.isSome = true) : ∃ a, x = .ok a := by
  cases x with
  | error err => cases h
  | ok a => exact ⟨a, rfl⟩

theorem checkedU32_ok {err : CompileError} {n m : Nat} (h : checkedU32 err n = .ok m) : m = n ∧ n < u32Size := by
  unfold checkedU32 at h
  split at h
  · rename_i hn
    cases h
    exact ⟨rfl, hn⟩
  · cases h

theorem checkedU32_error_le {err err' : CompileError} {n : Nat} (h : checkedU32 err n = .error err') : u32Size ≤ n := by
  unfold checkedU32 at h
  split at h
  · cases h
  · omega

theorem checkedU32_error {err err' : CompileError} {n : Nat} (h : checkedU32 err n = .error err') : err' = err := by
  unfold checkedU32 at h
  split at h
  · cases h
  · exact (Except.error.inj h).symm

end MaskForge
