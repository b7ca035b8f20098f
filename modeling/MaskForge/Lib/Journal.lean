import Mathlib
/-!
# Journal — changes that are written down so that they can be taken back

A journal is a list of entries, the newest last, and each entry says how to take one change back.  When every change is
written down, the entries behind a mark take the state back to what it was at the mark, whatever happened in between.
-/
namespace Journal

variable {σ ε : Type}

/-- The entries taken back, the newest first. -/
def replay (undo : ε → σ → σ) (entries : List ε) (s : σ) : σ := entries.foldr undo s

section
variable {undo : ε → σ → σ}

theorem replay_append (older newer : List ε) (s : σ) :
    replay undo (older ++ newer) s = replay undo older (replay undo newer s) :=
  List.foldr_append

@[simp] theorem replay_snoc (older : List ε) (e : ε) (s : σ) :
    replay undo (older ++ [e]) s = replay undo older (undo e s) := by
  rw [replay_append]
  rfl

/-- From a state and its journal to a later one and its journal: what was written down since takes the
later state back. -/
def Since (undo : ε → σ → σ) (p q : σ × List ε) : Prop :=
  ∃ entries, q.2 = p.2 ++ entries ∧ replay undo entries q.1 = p.1

namespace Since

theorem refl (p : σ × List ε) : Since undo p p := ⟨[], (List.append_nil _).symm, rfl⟩

theorem trans {p q r : σ × List ε} (h : Since undo p q) (h' : Since undo q r) : Since undo p r := by
  obtain ⟨older, hq, hp⟩ := h
  obtain ⟨newer, hr, hq'⟩ := h'
  refine ⟨older ++ newer, ?_, ?_⟩
  · rw [hr, hq, List.append_assoc]
  · rw [replay_append, hq', hp]

/-- A change that its entry takes back. -/
theorem record {s t : σ} {log : List ε} {e : ε} (h : undo e t = s) : Since undo (s, log) (t, log ++ [e]) :=
  ⟨[e], rfl, h⟩

/-- **Going back to a mark**: the entries behind it take the state back, and are all that the journal has lost. -/
theorem take_back {p q : σ × List ε} (h : Since undo p q) :
    replay undo (q.2.drop p.2.length) q.1 = p.1 ∧ q.2.take p.2.length = p.2 := by
  obtain ⟨entries, hq, hp⟩ := h
  rw [hq, List.drop_left, List.take_left]
  exact ⟨hp, rfl⟩

end Since

end
end Journal
