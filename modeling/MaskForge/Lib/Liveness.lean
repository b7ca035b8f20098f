import Mathlib
/-!
# Liveness — which nodes lead to a marked one, by a queue run backwards

The marked nodes start in the queue; each node taken from it marks those of its predecessors that are not marked yet and
queues them.  Every node enters the queue at most once, so as many rounds as there are nodes empty it.
-/
namespace Liveness

structure State where
  live : List Bool
  queue : List Nat

/-- A node is marked and queued once. -/
def visit (s : State) (v : Nat) : State :=
  if s.live[v]? = some false then ⟨s.live.set v true, s.queue ++ [v]⟩ else s

def run (preds : Nat → List Nat) : Nat → State → State
  | 0, s => s
  | f + 1, s => match s.queue with
    | [] => s
    | t :: rest => run preds f ((preds t).foldl visit { s with queue := rest })

def init (marked : List Bool) : State :=
  ⟨marked, (List.range marked.length).filter fun v => decide (marked[v]? = some true)⟩

/-- The marks when the queue is empty. -/
def sweep (preds : Nat → List Nat) (marked : List Bool) : List Bool := (run preds marked.length (init marked)).live

def Live (s : State) (v : Nat) : Prop := s.live[v]? = some true

/-- One node leads to another backwards along the predecessors. -/
def Leads (preds : Nat → List Nat) : Nat → Nat → Prop := Relation.ReflTransGen fun v t => v ∈ preds t

/-- What is still to be paid for: the queue and the nodes not marked. -/
def cost (s : State) : Nat := s.queue.length + s.live.count false

theorem count_set_true :
    ∀ {l : List Bool} {v : Nat}, l[v]? = some false → (l.set v true).count false + 1 = l.count false
  | [], _, h => by cases h
  | b :: l, 0, h => by
    cases h
    simp
  | b :: l, v + 1, h => by
    have ih := count_set_true (l := l) (v := v) h
    rw [List.set_cons_succ, List.count_cons, List.count_cons]
    omega

theorem visit_live {s : State} {v u : Nat} (h : Live s u) : Live (visit s v) u := by
  unfold visit
  split
  · rename_i hv
    have hne : v ≠ u := by
      rintro rfl
      rw [Live, hv] at h
      cases h
    rw [Live, List.getElem?_set_ne hne]
    exact h
  · exact h

theorem visit_self {s : State} {v : Nat} (h : v < s.live.length) : Live (visit s v) v := by
  unfold visit
  split
  · rw [Live, List.getElem?_set_self h]
  · rename_i hv
    rw [List.getElem?_eq_getElem h] at hv
    rw [Live, List.getElem?_eq_getElem h]
    simpa using hv

/-- A round in progress: `now` is the node taken from the queue, `rest` those of its predecessors still to visit. -/
structure Inv (preds : Nat → List Nat) (marked : List Bool) (now : Option Nat) (rest : List Nat) (s : State) :
    Prop where
  length : s.live.length = marked.length
  sound : ∀ v, Live s v → ∃ t, marked[t]? = some true ∧ Leads preds v t
  seeds : ∀ v, marked[v]? = some true → Live s v
  queued : ∀ v ∈ s.queue, Live s v
  closed : ∀ t, Live s t → t ∈ s.queue ∨ (now = some t ∧ ∀ p ∈ preds t, p ∈ rest ∨ Live s p) ∨ ∀ p ∈ preds t, Live s p

variable {preds : Nat → List Nat} {marked : List Bool}

theorem Inv.visit {now : Option Nat} {v : Nat} {rest : List Nat} {s : State} (h : Inv preds marked now (v :: rest) s)
    (hv : v < marked.length) (hsound : ∃ t, marked[t]? = some true ∧ Leads preds v t) :
    Inv preds marked now rest (visit s v) ∧ cost (Liveness.visit s v) = cost s := by
  have hself : Live (Liveness.visit s v) v := visit_self (h.length ▸ hv)
  have hrest : ∀ p, p ∈ v :: rest ∨ Live s p → p ∈ rest ∨ Live (Liveness.visit s v) p := by
    intro p hp
    rcases hp with hp | hp
    · rcases List.mem_cons.1 hp with rfl | hp
      · exact .inr hself
      · exact .inl hp
    · exact .inr (visit_live hp)
  have hclosed : ∀ t, Live s t → t ∈ (Liveness.visit s v).queue ∨
      (now = some t ∧ ∀ p ∈ preds t, p ∈ rest ∨ Live (Liveness.visit s v) p) ∨
        ∀ p ∈ preds t, Live (Liveness.visit s v) p := by
    intro t ht
    rcases h.closed t ht with hq | ⟨hn, hp⟩ | hp
    · refine .inl ?_
      unfold Liveness.visit
      split
      · exact List.mem_append_left _ hq
      · exact hq
    · exact .inr (.inl ⟨hn, fun p hmem => hrest p (hp p hmem)⟩)
    · exact .inr (.inr fun p hmem => visit_live (hp p hmem))
  by_cases hfresh : s.live[v]? = some false
  · have hvisit : Liveness.visit s v = ⟨s.live.set v true, s.queue ++ [v]⟩ := if_pos hfresh
    have hold : ∀ u, Live (Liveness.visit s v) u → u = v ∨ Live s u := by
      intro u hu
      by_cases huv : v = u
      · exact .inl huv.symm
      · rw [hvisit, Live, List.getElem?_set_ne huv] at hu
        exact .inr hu
    refine ⟨⟨?_, ?_, fun u hu => visit_live (h.seeds u hu), ?_, ?_⟩, ?_⟩
    · rw [hvisit, List.length_set, h.length]
    · intro u hu
      rcases hold u hu with rfl | hu
      · exact hsound
      · exact h.sound u hu
    · intro u hu
      rw [hvisit] at hu
      rcases List.mem_append.1 hu with hu | hu
      · exact visit_live (h.queued u hu)
      · rw [List.mem_singleton.1 hu]
        exact hself
    · intro t ht
      rcases hold t ht with rfl | ht
      · refine .inl ?_
        rw [hvisit]
        exact List.mem_append_right _ List.mem_cons_self
      · exact hclosed t ht
    · have hcount := count_set_true hfresh
      rw [hvisit, cost, cost, List.length_append, List.length_singleton]
      dsimp only
      omega
  · have hvisit : Liveness.visit s v = s := if_neg hfresh
    refine ⟨⟨?_, ?_, fun u hu => visit_live (h.seeds u hu), ?_, ?_⟩, by rw [hvisit]⟩
    · rw [hvisit]
      exact h.length
    · rw [hvisit]
      exact h.sound
    · rw [hvisit]
      exact h.queued
    · intro t ht
      rw [hvisit] at ht
      exact hclosed t ht

theorem Inv.visits {now : Option Nat} : ∀ {rest : List Nat} {s : State}, Inv preds marked now rest s →
    (∀ p ∈ rest, p < marked.length ∧ ∃ t, marked[t]? = some true ∧ Leads preds p t) →
      Inv preds marked now [] (rest.foldl Liveness.visit s) ∧ cost (rest.foldl Liveness.visit s) = cost s
  | [], _, h, _ => ⟨h, rfl⟩
  | v :: rest, s, h, hall => by
    obtain ⟨hv, hsound⟩ := hall v List.mem_cons_self
    obtain ⟨hinv, hcost⟩ := h.visit hv hsound
    obtain ⟨hend, hcost'⟩ := hinv.visits fun p hp => hall p (List.mem_cons_of_mem _ hp)
    exact ⟨hend, hcost'.trans hcost⟩

/-- The round is over. -/
theorem Inv.settle {now : Option Nat} {s : State} (h : Inv preds marked now [] s) : Inv preds marked none [] s := by
  refine ⟨h.length, h.sound, h.seeds, h.queued, fun t ht => ?_⟩
  rcases h.closed t ht with hq | ⟨_, hp⟩ | hp
  · exact .inl hq
  · exact .inr (.inr fun p hmem => (hp p hmem).resolve_left List.not_mem_nil)
  · exact .inr (.inr hp)

theorem run_inv (hin : ∀ t, t < marked.length → ∀ p ∈ preds t, p < marked.length) : ∀ (f : Nat) {s : State},
    Inv preds marked none [] s → cost s ≤ f → Inv preds marked none [] (run preds f s) ∧ (run preds f s).queue = []
  | 0, s, h, hf => by
    refine ⟨h, List.length_eq_zero_iff.1 ?_⟩
    unfold cost at hf
    show s.queue.length = 0
    omega
  | f + 1, s, h, hf => by
    rw [run]
    split
    · rename_i hq
      exact ⟨h, hq⟩
    · rename_i t rest hq
      have ht : Live s t := h.queued t (by rw [hq]; exact List.mem_cons_self)
      have hlt : t < marked.length := h.length ▸ (List.getElem?_eq_some_iff.1 ht).1
      have htaken : Inv preds marked (some t) (preds t) { s with queue := rest } := by
        refine ⟨h.length, h.sound, h.seeds, fun v hv => h.queued v (by rw [hq]; exact List.mem_cons_of_mem _ hv),
          fun u hu => ?_⟩
        rcases h.closed u hu with hmem | ⟨hn, _⟩ | hp
        · rw [hq] at hmem
          rcases List.mem_cons.1 hmem with rfl | hmem
          · exact .inr (.inl ⟨rfl, fun p hp => .inl hp⟩)
          · exact .inl hmem
        · cases hn
        · exact .inr (.inr hp)
      have hpreds : ∀ p ∈ preds t, p < marked.length ∧ ∃ w, marked[w]? = some true ∧ Leads preds p w := by
        intro p hp
        obtain ⟨w, hw, hleads⟩ := h.sound t ht
        exact ⟨hin t hlt p hp, w, hw, .head hp hleads⟩
      obtain ⟨hround, hcost⟩ := htaken.visits hpreds
      refine run_inv hin f hround.settle ?_
      have hpop : cost { s with queue := rest } + 1 = cost s := by
        rw [cost, cost, hq, List.length_cons]
        dsimp only
        omega
      omega

theorem inv_init : Inv preds marked none [] (init marked) := by
  refine ⟨rfl, fun v hv => ⟨v, hv, .refl⟩, fun v hv => hv, fun v hv => ?_, fun t ht => .inl ?_⟩
  · have hmarked : decide (marked[v]? = some true) = true := (List.mem_filter.1 hv).2
    rwa [decide_eq_true_eq] at hmarked
  · have hlt := (List.getElem?_eq_some_iff.1 ht).1
    exact List.mem_filter.2 ⟨List.mem_range.2 hlt, decide_eq_true ht⟩

theorem count_init : ∀ marked : List Bool,
    ((List.range marked.length).filter fun v => decide (marked[v]? = some true)).length + marked.count false =
    marked.length
  | [] => rfl
  | b :: l => by
    have ih := count_init l
    rw [List.length_cons, List.range_succ_eq_map, List.filter_cons, List.filter_map, List.count_cons]
    have hfun : ((fun v => decide ((b :: l)[v]? = some true)) ∘ Nat.succ) = fun v => decide (l[v]? = some true) := rfl
    rw [hfun]
    cases b <;> simp <;> omega

/-- **The marks at the end are those of the nodes that lead to a marked one.** -/
theorem sweep_spec (hin : ∀ t, t < marked.length → ∀ p ∈ preds t, p < marked.length) :
    (sweep preds marked).length = marked.length ∧
      ∀ v, (sweep preds marked)[v]? = some true ↔ ∃ t, marked[t]? = some true ∧ Leads preds v t := by
  obtain ⟨hinv, hempty⟩ := run_inv hin marked.length inv_init (Nat.le_of_eq (count_init marked))
  refine ⟨hinv.length, fun v => ⟨hinv.sound v, ?_⟩⟩
  rintro ⟨t, ht, hleads⟩
  show Live _ v
  induction hleads using Relation.ReflTransGen.head_induction_on with
  | refl => exact hinv.seeds t ht
  | head hp _ ih =>
    rcases hinv.closed _ ih with hq | ⟨hn, _⟩ | hall
    · rw [hempty] at hq
      cases hq
    · cases hn
    · exact hall _ hp

end Liveness
