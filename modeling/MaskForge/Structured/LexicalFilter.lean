import MaskForge.Structured.Applicators
import MaskForge.Structured.Session
/-!
# LexicalFilter — the bytes a mask walk skips without trying them

The filter looks down the stack past the values that are complete and judges a byte by the container it comes to.  Below
the frame on top every frame is a container holding a value, and such a container takes whitespace, a comma and its own
bracket alone: a byte that reaches it and is none of these is refused.  What the filter does not ask is whether the
value it looks past can still take the byte itself.  A regular value is asked; an obligation frame is not.
-/
namespace MaskForge
namespace Session

variable {P : Parts} {I : Interior} {d : DynamicPlan} {t : NodeTable} {fuel : Nat}

/-! ## What stays below the frame on top -/

/-- Every frame holds a value. -/
def Held (frames : List (Frame P I)) : Prop := ∀ f ∈ frames, f.holds = true

/-- **The stack discipline**: only the frame on top reads. -/
def Stacked : List (Frame P I) → Prop
  | [] => True
  | _ :: below => Held below

theorem Held.stacked {frames : List (Frame P I)} (h : Held frames) : Stacked frames := by
  cases frames with
  | nil => trivial
  | cons f below => exact fun g hg => h g (List.mem_cons_of_mem f hg)

theorem Frame.feedOwn_holds {b : Byte} {f f' : Frame P I} (h : f.feedOwn b = some f') : f'.holds = f.holds := by
  unfold Frame.feedOwn at h
  split at h
  · obtain ⟨o, -, rfl⟩ := Option.map_eq_some_iff.1 h
    rename_i phase _ _
    cases phase <;> rfl
  · cases h
    rfl

theorem Frame.observe_holds {b : Byte} {f f' : Frame P I} (h : f.observe b = some f') : f'.holds = f.holds := by
  unfold Frame.observe at h
  split at h
  · obtain ⟨a, -, rfl⟩ := Option.map_eq_some_iff.1 h
    rename_i phase _ _
    cases phase <;> rfl
  · exact Frame.feedOwn_holds h

theorem Held.observe {b : Byte} : ∀ {below below' : List (Frame P I)}, Held below →
    below.mapM (Frame.observe b) = some below' → Held below'
  | [], below', _, h => by
    rw [List.mapM_nil] at h
    cases h
    exact fun _ hf => absurd hf List.not_mem_nil
  | f :: below, below', hheld, h => by
    rw [List.mapM_cons, Option.bind_eq_bind, Option.bind_eq_some_iff] at h
    obtain ⟨f', hf, h⟩ := h
    rw [Option.bind_eq_bind, Option.bind_eq_some_iff] at h
    obtain ⟨rest, hrest, h⟩ := h
    cases h
    intro g hg
    rcases List.mem_cons.1 hg with rfl | hg
    · rw [Frame.observe_holds hf]
      exact hheld f List.mem_cons_self
    · exact Held.observe (fun x hx => hheld x (List.mem_cons_of_mem f hx)) hrest g hg

theorem recordItemByte_held {b : Byte} {f f' : Frame P I} {below below' : List (Frame P I)} (hheld : Held below)
    (h : recordItemByte b f below = some (f', below')) : Held below' := by
  obtain ⟨g, -, h⟩ := Option.bind_eq_some_iff.1 h
  obtain ⟨rest, hrest, heq⟩ := Option.map_eq_some_iff.1 h
  cases heq
  exact hheld.observe hrest

/-- Finishing an item leaves the phases alone, and so what the frames refuse. -/
theorem finishTrackedItem_some {below below' : List (Frame P I)} (h : finishTrackedItem below = some below') :
    below' = below ∨ ∃ phase scope a a' rest, below = .array phase scope a :: rest ∧ below' = .array phase scope a' ::
    rest := by
  unfold finishTrackedItem at h
  split at h
  · obtain ⟨a', -, rfl⟩ := Option.map_eq_some_iff.1 h
    exact .inr ⟨_, _, _, a', _, rfl, rfl⟩
  · cases h
    exact .inl rfl

theorem Held.finish {below below' : List (Frame P I)} (hheld : Held below) (h : finishTrackedItem below = some below') :
    Held below' := by
  obtain rfl | ⟨phase, scope, a, a', rest, rfl, rfl⟩ := finishTrackedItem_some h
  · exact hheld
  · intro g hg
    rcases List.mem_cons.1 hg with rfl | hg
    · have := hheld _ List.mem_cons_self
      cases phase <;> exact this
    · exact hheld g (List.mem_cons_of_mem _ hg)

/-- **A byte keeps the stack discipline.** -/
theorem routeByte_stacked (b : Byte) (frames : List (Frame P I)) {frames' : List (Frame P I)} (hs : Stacked frames)
    (h : routeByte d t fuel b frames = some frames') : Stacked frames' := by
  fun_induction routeByte d t fuel b frames with
  | case1 => cases h
  | case2 => cases h
  | case3 f below f' hstep =>
    obtain ⟨⟨g, below'⟩, hrec, h⟩ := Option.bind_eq_some_iff.1 h
    have hheld := recordItemByte_held hs hrec
    simp only at h
    split at h
    · exact (hheld.finish h).stacked
    · cases h
      exact hheld
  | case4 f below f' hstep =>
    obtain ⟨⟨g, below'⟩, hrec, h⟩ := Option.bind_eq_some_iff.1 h
    simp only at h
    split at h
    · exact ((recordItemByte_held hs hrec).finish h).stacked
    · cases h
  | case5 => cases h
  | case6 =>
    cases h
    trivial
  | case7 => cases h
  | case8 f below hstep g below' hpop ih => exact ih (Held.finish hs hpop).stacked h
  | case9 f below child f' hstep ih =>
    refine ih (fun g hg => ?_) h
    rcases List.mem_cons.1 hg with rfl | hg
    · exact (Frame.step_opened hstep).2.2
    · exact hs g hg

/-- What holds in every state a session comes to. -/
structure Ordered (s : Session P I) : Prop where
  alive : s.dead = false
  closed : s.rootClosed = s.frames.isEmpty
  stacked : Stacked s.frames

theorem Ordered.new {node : Nat} {scope : DynamicPlan.Scope} {s : Session P I}
    (h : Session.new d t node scope = some s) :
    Ordered s := by
  obtain ⟨f, -, rfl⟩ := Option.map_eq_some_iff.1 h
  exact ⟨rfl, rfl, fun g hg => absurd hg List.not_mem_nil⟩

theorem Ordered.push {s s' : Session P I} {b : Byte} (hs : Ordered s) (h : s.tryPushByteForMask d t fuel b = some s') :
    Ordered s' := by
  unfold tryPushByteForMask at h
  split at h
  · split at h
    · cases h
      exact hs
    · cases h
  · obtain ⟨frames, hroute, h⟩ := Option.bind_eq_some_iff.1 h
    split at h
    · cases h
      exact ⟨hs.alive, rfl, routeByte_stacked b s.frames hs.stacked hroute⟩
    · cases h

end Session
end MaskForge
