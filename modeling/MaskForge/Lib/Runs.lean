import Mathlib
/-!
# Runs — what a step function preserves along a run

A machine takes events one at a time and refuses those that are not enabled.  A fact that every step keeps holds
wherever a run ends; a step may be asked to meet a condition on the state before it.
-/
namespace Runs

variable {σ α : Type}

/-- The state after a list of events; `none` where one of them is not enabled. -/
def run (step : σ → α → Option σ) : σ → List α → Option σ
  | s, [] => some s
  | s, a :: as => (step s a).bind (fun s' => run step s' as)

/-- Every step of a run meets a condition on the event and the state before it. -/
def Each (step : σ → α → Option σ) (ok : σ → α → Prop) : σ → List α → Prop
  | _, [] => True
  | s, a :: as => ok s a ∧ ∀ s', step s a = some s' → Each step ok s' as

variable {step : σ → α → Option σ} {ok : σ → α → Prop} {Inv : σ → Prop}

theorem run_append : ∀ (s : σ) (as bs : List α), run step s (as ++ bs) = (run step s as).bind (fun s' => run step s' bs)
  | s, [], bs => by rw [List.nil_append, run, Option.bind_some]
  | s, a :: as, bs => by
    rw [List.cons_append, run, run]
    cases step s a with
    | none => rfl
    | some s' => exact run_append s' as bs

/-- **What every step that meets the condition keeps, a run of such steps keeps.** -/
theorem run_inv_of_each (hstep : ∀ s a s', Inv s → ok s a → step s a = some s' → Inv s') :
    ∀ {s : σ} {as : List α} {s' : σ},
    Inv s → Each step ok s as → run step s as = some s' → Inv s'
  | s, [], s', hs, _, h => by
    cases h
    exact hs
  | s, a :: as, s', hs, heach, h => by
    obtain ⟨t, ht, h⟩ := Option.bind_eq_some_iff.1 h
    exact run_inv_of_each hstep (hstep s a t hs heach.1 ht) (heach.2 t ht) h

/-- **What every step keeps, every run keeps.** -/
theorem run_inv (hstep : ∀ s a s', Inv s → step s a = some s' → Inv s') : ∀ {s : σ} {as : List α} {s' : σ},
    Inv s → run step s as = some s' → Inv s'
  | s, [], s', hs, h => by
    cases h
    exact hs
  | s, a :: as, s', hs, h => by
    obtain ⟨t, ht, h⟩ := Option.bind_eq_some_iff.1 h
    exact run_inv hstep (hstep s a t hs ht) h

/-- Where a step keeps `Inv` exactly if it meets the condition, **the runs of such steps are those that have `Inv` all
along**. -/
theorem each_iff_prefixes (hstep : ∀ s a s', Inv s → step s a = some s' → (ok s a ↔ Inv s')) :
    ∀ {s : σ} {as : List α} {t : σ}, Inv s → run step s as = some t →
      (Each step ok s as ↔ ∀ bs u, bs <+: as → run step s bs = some u → Inv u)
  | s, [], t, hs, _ => by
    refine ⟨fun _ bs u hbs hu => ?_, fun _ => trivial⟩
    rw [List.prefix_nil.1 hbs] at hu
    cases hu
    exact hs
  | s, a :: as, t, hs, h => by
    obtain ⟨s', ha, hrest⟩ := Option.bind_eq_some_iff.1 h
    have hok := hstep s a s' hs ha
    constructor
    · rintro heach bs u hbs hu
      cases bs with
      | nil =>
        cases hu
        exact hs
      | cons b bs =>
        obtain ⟨rfl, hrest'⟩ := List.cons_prefix_cons.1 hbs
        obtain ⟨s'', hb, hu⟩ := Option.bind_eq_some_iff.1 hu
        cases hb.symm.trans ha
        exact (each_iff_prefixes hstep (hok.1 heach.1) hrest).1 (heach.2 _ ha) bs u hrest' hu
    · intro hall
      have hinv : Inv s' := hall [a] s' (List.cons_prefix_cons.2 ⟨rfl, List.nil_prefix⟩) (by rw [run, ha]; rfl)
      refine ⟨hok.2 hinv, fun s'' hs'' => ?_⟩
      cases hs''.symm.trans ha
      refine (each_iff_prefixes hstep hinv hrest).2 fun bs u hbs hu => hall (a :: bs) u ?_ ?_
      · exact List.cons_prefix_cons.2 ⟨rfl, hbs⟩
      · rw [run, ha, Option.bind_some]
        exact hu

end Runs
