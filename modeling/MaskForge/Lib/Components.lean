import Mathlib
/-!
# Components — strongly connected components by two depth-first passes

The first pass runs over successors with an explicit stack of half-explored nodes and lists each node as it finishes.
The second pass takes nodes in the reverse of that order and collects, over predecessors, what is not collected yet.

The invariant of the first pass is about one list, the finished nodes followed by the stack (`Pass.line`): finishing a
node moves the border between the two and leaves the line as it is, and opening a node inserts it at the border.  With
`lo u` the border at the time `u` was opened, everything that finished since then is reachable from `u`
(`Line.below`), and an edge out of what had finished before leads either to what had finished before, or to a node that
finishes after `u` (`Line.escape`).
-/
namespace Components

open Relation (ReflTransGen)

variable (succ : Nat → List Nat)

/-- `v` is a successor of `u`. -/
def Edge (u v : Nat) : Prop := v ∈ succ u

abbrev Reach : Nat → Nat → Prop := ReflTransGen (Edge succ)

/-! ## The first pass -/

/-- The marks, the stack of nodes with the number of successors already tried, and the finished nodes. -/
structure Pass where
  seen : Nat → Bool := fun _ => false
  stack : List (Nat × Nat) := []
  order : List Nat := []

namespace Pass

def step (s : Pass) : Pass :=
  match s.stack with
  | [] => s
  | (u, k) :: rest =>
    match (succ u)[k]? with
    | none => { s with stack := rest, order := s.order ++ [u] }
    | some v =>
      if s.seen v then { s with stack := (u, k + 1) :: rest }
      else { s with seen := Function.update s.seen v true, stack := (v, 0) :: (u, k + 1) :: rest }

def run : Nat → Pass → Pass
  | 0, s => s
  | f + 1, s => match s.stack with
    | [] => s
    | _ :: _ => run f (s.step succ)

/-- Opens a node nothing has marked yet. -/
def opened (s : Pass) (v : Nat) : Pass := { s with seen := Function.update s.seen v true, stack := (v, 0) :: s.stack }

/-- The steps a stack can still take when the unmarked nodes are among the first `n`. -/
def cost (n : Nat) (s : Pass) : Nat :=
  (∑ u ∈ (Finset.range n).filter (fun u => s.seen u = false), ((succ u).length + 2)) +
    (s.stack.map (fun f => (succ f.1).length - f.2 + 1)).sum

def fuel (n : Nat) : Nat := ∑ u ∈ Finset.range n, ((succ u).length + 2)

/-- One start of the outer loop. -/
def visit (n : Nat) (active : Nat → Bool) (s : Pass) (start : Nat) : Pass :=
  if active start && !s.seen start then run succ (fuel succ n) (s.opened start) else s

def line (s : Pass) : List Nat := s.order ++ s.stack.map Prod.fst

end Pass

/-- The finishing order of the active nodes among the first `n`. -/
def finishOrder (n : Nat) (active : Nat → Bool) : List Nat :=
  ((List.range n).foldl (Pass.visit succ n active) {}).order

/-- The line of nodes: the first `p` are finished. -/
structure Line (l : List Nat) (p : Nat) (lo : Nat → Nat) : Prop where
  nodup : l.Nodup
  border : p ≤ l.length
  low : ∀ u ∈ l, lo u ≤ p
  own : ∀ u a, l[a]? = some u → lo u ≤ a
  done : ∀ i w, l[i]? = some w → i < p → ∀ v ∈ succ w, v ∈ l
  below : ∀ u a, l[a]? = some u → ∀ i x, l[i]? = some x → lo u ≤ i → i < a → i < p → Reach succ u x
  escape : ∀ i w, l[i]? = some w → i < p → ∀ v ∈ succ w, ∀ b, l[b]? = some v → ∀ u a, l[a]? = some u → i < lo u →
    b < lo u ∨ a < b

variable {succ}

theorem Line.empty : Line succ [] 0 (fun _ => 0) := by
  refine ⟨List.nodup_nil, Nat.le_refl _, ?_, ?_, ?_, ?_, ?_⟩
  · intro u hu
    cases hu
  · intro u a h
    cases h
  · intro i w h
    cases h
  · intro u a h
    cases h
  · intro i w h
    cases h

/-- Where an element of the line stands after one more is inserted at the border. -/
theorem getElem?_insert {l : List Nat} {p : Nat} (hp : p ≤ l.length) (v a u : Nat) :
    (l.take p ++ v :: l.drop p)[a]? = some u ↔
      (a < p ∧ l[a]? = some u) ∨ (a = p ∧ u = v) ∨ (p < a ∧ l[a - 1]? = some u) := by
  have hlen : (l.take p).length = p := by simpa using hp
  rcases Nat.lt_trichotomy a p with h | h | h
  · rw [List.getElem?_append_left (by omega), List.getElem?_take_of_lt h]
    constructor
    · exact fun hu => Or.inl ⟨h, hu⟩
    · rintro (⟨-, hu⟩ | ⟨h', -⟩ | ⟨h', -⟩)
      · exact hu
      · omega
      · omega
  · subst h
    rw [List.getElem?_append_right (by omega), hlen, Nat.sub_self, List.getElem?_cons_zero]
    constructor
    · intro hu
      exact Or.inr (Or.inl ⟨rfl, (Option.some.inj hu).symm⟩)
    · rintro (⟨h', -⟩ | ⟨-, rfl⟩ | ⟨h', -⟩)
      · omega
      · rfl
      · omega
  · obtain ⟨m, hm⟩ : ∃ m, a - p = m + 1 := ⟨a - p - 1, by omega⟩
    rw [List.getElem?_append_right (by omega), hlen, hm, List.getElem?_cons_succ, List.getElem?_drop,
      show p + m = a - 1 by omega]
    constructor
    · exact fun hu => Or.inr (Or.inr ⟨h, hu⟩)
    · rintro (⟨h', -⟩ | ⟨h', -⟩ | ⟨-, hu⟩)
      · omega
      · omega
      · exact hu

/-- **Opening a node inserts it at the border.** -/
theorem Line.insert {l : List Nat} {p v : Nat} {lo : Nat → Nat} (h : Line succ l p lo) (hv : v ∉ l) :
    Line succ (l.take p ++ v :: l.drop p) p (Function.update lo v p) := by
  have hat := fun a u => getElem?_insert h.border v a u
  have hmem : ∀ {a u : Nat}, l[a]? = some u → u ≠ v := by
    rintro a u hu rfl
    exact hv (List.mem_of_getElem? hu)
  have hlo : ∀ {a u : Nat}, l[a]? = some u → Function.update lo v p u = lo u := fun hu =>
    Function.update_of_ne (hmem hu) _ _
  have hkeep : ∀ {x}, x ∈ l → x ∈ l.take p ++ v :: l.drop p := by
    intro x hx
    rw [← List.take_append_drop p l] at hx
    rcases List.mem_append.1 hx with hx | hx
    · exact List.mem_append_left _ hx
    · exact List.mem_append_right _ (List.mem_cons_of_mem _ hx)
  refine ⟨?_, ?_, ?_, ?_, ?_, ?_, ?_⟩
  · have hperm : (l.take p ++ v :: l.drop p).Perm (v :: l) := by
      have hmid : (l.take p ++ v :: l.drop p).Perm (v :: (l.take p ++ l.drop p)) := List.perm_middle
      rwa [List.take_append_drop] at hmid
    exact hperm.nodup_iff.2 (List.nodup_cons.2 ⟨hv, h.nodup⟩)
  · simp only [List.length_append, List.length_cons, List.length_take, List.length_drop]
    have := h.border
    omega
  · intro u hu
    by_cases huv : u = v
    · rw [huv, Function.update_self]
    · rw [Function.update_of_ne huv]
      refine h.low u ?_
      rcases List.mem_append.1 hu with hu | hu
      · exact List.mem_of_mem_take hu
      · rcases List.mem_cons.1 hu with hu | hu
        · exact absurd hu huv
        · exact List.mem_of_mem_drop hu
  · intro u a hu
    rcases (hat a u).1 hu with ⟨-, hu⟩ | ⟨rfl, rfl⟩ | ⟨-, hu⟩
    · rw [hlo hu]
      exact h.own u a hu
    · rw [Function.update_self]
    · rw [hlo hu]
      have := h.own u (a - 1) hu
      omega
  · intro i w hw hi x hx
    rcases (hat i w).1 hw with ⟨-, hw⟩ | ⟨h', -⟩ | ⟨h', -⟩
    · exact hkeep (h.done i w hw hi x hx)
    · omega
    · omega
  · intro u a hu i x hx hlow hia hip
    have hx' : l[i]? = some x := by
      rcases (hat i x).1 hx with ⟨-, hx⟩ | ⟨h', -⟩ | ⟨h', -⟩
      · exact hx
      · omega
      · omega
    rcases (hat a u).1 hu with ⟨-, hu⟩ | ⟨-, rfl⟩ | ⟨ha, hu⟩
    · rw [hlo hu] at hlow
      exact h.below u a hu i x hx' hlow hia hip
    · rw [Function.update_self] at hlow
      omega
    · rw [hlo hu] at hlow
      exact h.below u (a - 1) hu i x hx' hlow (by omega) hip
  · intro i w hw hi x hx b hb u a hu hlow
    have hw' : l[i]? = some w := by
      rcases (hat i w).1 hw with ⟨-, hw⟩ | ⟨h', -⟩ | ⟨h', -⟩
      · exact hw
      · omega
      · omega
    have hxl := h.done i w hw' hi x hx
    have hxv : x ≠ v := fun hc => hv (hc ▸ hxl)
    rcases (hat a u).1 hu with ⟨ha, hu⟩ | ⟨ha, rfl⟩ | ⟨ha, hu⟩
    · rw [hlo hu] at hlow ⊢
      have hlu := h.low u (List.mem_of_getElem? hu)
      rcases (hat b x).1 hb with ⟨hb', hb⟩ | ⟨-, rfl⟩ | ⟨hb', hb⟩
      · exact h.escape i w hw' hi x hx b hb u a hu hlow
      · exact absurd rfl hxv
      · rcases h.escape i w hw' hi x hx (b - 1) hb u a hu hlow with h1 | h1 <;> omega
    · rw [Function.update_self]
      rcases (hat b x).1 hb with ⟨hb', hb⟩ | ⟨-, rfl⟩ | ⟨hb', hb⟩
      · exact Or.inl hb'
      · exact absurd rfl hxv
      · exact Or.inr (by omega)
    · rw [hlo hu] at hlow ⊢
      have hlu := h.low u (List.mem_of_getElem? hu)
      rcases (hat b x).1 hb with ⟨hb', hb⟩ | ⟨-, rfl⟩ | ⟨hb', hb⟩
      · rcases h.escape i w hw' hi x hx b hb u (a - 1) hu hlow with h1 | h1 <;> omega
      · exact absurd rfl hxv
      · rcases h.escape i w hw' hi x hx (b - 1) hb u (a - 1) hu hlow with h1 | h1 <;> omega

/-- **Finishing a node moves the border past it.** -/
theorem Line.finish {l : List Nat} {p u : Nat} {lo : Nat → Nat} (h : Line succ l p lo) (hu : l[p]? = some u)
    (hall : ∀ v ∈ succ u, v ∈ l) (hstack : ∀ a x, l[a]? = some x → p < a → Reach succ x u) :
    Line succ l (p + 1) lo := by
  refine ⟨h.nodup, (List.getElem?_eq_some_iff.1 hu).1, fun x hx => Nat.le_succ_of_le (h.low x hx), h.own,
    ?_, ?_, ?_⟩
  · intro i w hw hi v hv
    rcases Nat.lt_succ_iff_lt_or_eq.1 hi with hi | rfl
    · exact h.done i w hw hi v hv
    · rw [hu] at hw
      cases hw
      exact hall v hv
  · intro x a hx i y hy hlow hia hip
    rcases Nat.lt_succ_iff_lt_or_eq.1 hip with hi | rfl
    · exact h.below x a hx i y hy hlow hia hi
    · rw [hu] at hy
      cases hy
      exact hstack a x hx hia
  · intro i w hw hi v hv b hb x a hx hlow
    rcases Nat.lt_succ_iff_lt_or_eq.1 hi with hi | rfl
    · exact h.escape i w hw hi v hv b hb x a hx hlow
    · have := h.low x (List.mem_of_getElem? hx)
      omega

namespace Pass

variable (succ) in
/-- What holds between two steps of the first pass. -/
structure Inv (ok : Nat → Prop) (s : Pass) (lo : Nat → Nat) : Prop where
  line : Line succ s.line s.order.length lo
  seen : ∀ u, s.seen u = true ↔ u ∈ s.line
  inside : ∀ u ∈ s.line, ok u
  chain : (s.stack.map Prod.fst).IsChain (fun v u => Edge succ u v)
  tried : ∀ f ∈ s.stack, f.2 ≤ (succ f.1).length ∧ ∀ i, i < f.2 → ∀ v, (succ f.1)[i]? = some v → v ∈ s.line

variable {ok : Nat → Prop}

theorem Inv.opened {v : Nat} {s : Pass} {lo : Nat → Nat} (h : Inv succ ok s lo) (hv : s.seen v = false)
    (hn : ok v) (hedge : ∀ f ∈ s.stack.head?, Edge succ f.1 v) :
    Inv succ ok (s.opened v) (Function.update lo v s.order.length) := by
  have hvl : v ∉ s.line := by
    rw [← h.seen v, hv]
    simp
  have hline : (s.opened v).line = s.line.take s.order.length ++ v :: s.line.drop s.order.length := by
    simp [Pass.line, Pass.opened]
  have hmem : ∀ u, u ∈ (s.opened v).line ↔ u = v ∨ u ∈ s.line := by
    intro u
    simp only [Pass.line, Pass.opened, List.map_cons, List.mem_append, List.mem_cons]
    tauto
  refine ⟨?_, ?_, ?_, ?_, ?_⟩
  · rw [hline]
    exact h.line.insert hvl
  · intro u
    rw [hmem, ← h.seen u]
    simp only [Pass.opened]
    by_cases huv : u = v
    · simp [huv]
    · simp [huv]
  · intro u hu
    rcases (hmem u).1 hu with rfl | hu
    · exact hn
    · exact h.inside u hu
  · simp only [Pass.opened, List.map_cons]
    cases hs : s.stack with
    | nil => exact List.isChain_singleton _
    | cons f rest =>
      have hc := h.chain
      rw [hs] at hc hedge
      exact List.isChain_cons_cons.2 ⟨hedge f rfl, hc⟩
  · intro f hf
    rcases List.mem_cons.1 hf with rfl | hf
    · exact ⟨Nat.zero_le _, fun i hi => absurd hi (Nat.not_lt_zero i)⟩
    · obtain ⟨h1, h2⟩ := h.tried f hf
      exact ⟨h1, fun i hi x hx => (hmem x).2 (Or.inr (h2 i hi x hx))⟩

/-- Every node of the stack reaches the ones above it. -/
theorem reach_of_chain : ∀ {l : List Nat} {u : Nat}, (u :: l).IsChain (fun v u => Edge succ u v) →
    ∀ x ∈ l, Reach succ x u
  | [], _, _, x, hx => by cases hx
  | w :: l, u, hc, x, hx => by
    obtain ⟨hwu, hc'⟩ := List.isChain_cons_cons.1 hc
    rcases List.mem_cons.1 hx with rfl | hx
    · exact .single hwu
    · exact (reach_of_chain hc' x hx).tail hwu

theorem Inv.step {s : Pass} {lo : Nat → Nat} (hin : ∀ u, ok u → ∀ v ∈ succ u, ok v)
    (h : Inv succ ok s lo) : ∃ lo', Inv succ ok (s.step succ) lo' := by
  cases hs : s.stack with
  | nil =>
    refine ⟨lo, ?_⟩
    unfold Pass.step
    rw [hs]
    exact h
  | cons f rest =>
    obtain ⟨u, k⟩ := f
    have hf : (u, k) ∈ s.stack := by rw [hs]; exact List.mem_cons_self
    obtain ⟨hk, htried⟩ := h.tried _ hf
    have hline : s.line = s.order ++ u :: rest.map Prod.fst := by simp [Pass.line, hs]
    have hul : u ∈ s.line := by rw [hline]; simp
    have hchain := h.chain
    rw [hs, List.map_cons] at hchain
    unfold Pass.step
    rw [hs]
    simp only
    cases hv : (succ u)[k]? with
    | none =>
      -- every successor has been tried: the border moves past `u`
      refine ⟨lo, ?_⟩
      have hfin : Line succ s.line (s.order.length + 1) lo := by
        refine h.line.finish (u := u) ?_ ?_ ?_
        · rw [hline]
          simp
        · intro v hv'
          obtain ⟨i, hi⟩ := List.mem_iff_getElem?.1 hv'
          refine htried i ?_ v hi
          have h1 := (List.getElem?_eq_some_iff.1 hi).1
          have h2 := List.getElem?_eq_none_iff.1 hv
          omega
        · intro a x hx ha
          rw [hline, List.getElem?_append_right (by omega)] at hx
          obtain ⟨m, hm⟩ : ∃ m, a - s.order.length = m + 1 := ⟨a - s.order.length - 1, by omega⟩
          rw [hm, List.getElem?_cons_succ] at hx
          exact reach_of_chain hchain x (List.mem_of_getElem? hx)
      have hsame : ({ s with stack := rest, order := s.order ++ [u] } : Pass).line = s.line := by
        rw [hline]
        simp [Pass.line]
      refine ⟨?_, ?_, ?_, ?_, ?_⟩
      · rw [hsame]
        simpa using hfin
      · intro x
        rw [hsame]
        exact h.seen x
      · rw [hsame]
        exact h.inside
      · exact hchain.tail
      · intro f hf
        rw [hsame]
        exact h.tried f (by rw [hs]; exact List.mem_cons_of_mem _ hf)
    | some v =>
      have hedge : Edge succ u v := List.mem_of_getElem? hv
      have hk' := (List.getElem?_eq_some_iff.1 hv).1
      -- the stack with one more successor of `u` tried
      have hnext : v ∈ s.line → Inv succ ok { s with stack := (u, k + 1) :: rest } lo := by
        intro hvl
        have hsame : ({ s with stack := (u, k + 1) :: rest } : Pass).line = s.line := by
          rw [hline]
          simp [Pass.line]
        refine ⟨?_, ?_, ?_, hchain, ?_⟩
        · rw [hsame]
          exact h.line
        · intro x
          rw [hsame]
          exact h.seen x
        · rw [hsame]
          exact h.inside
        · intro f hf
          rw [hsame]
          rcases List.mem_cons.1 hf with rfl | hf
          · refine ⟨hk', fun i hi x hx => ?_⟩
            rcases Nat.lt_succ_iff_lt_or_eq.1 hi with hi | rfl
            · exact htried i hi x hx
            · rw [hv] at hx
              cases hx
              exact hvl
          · exact h.tried f (by rw [hs]; exact List.mem_cons_of_mem _ hf)
      by_cases hseen : s.seen v = true
      · simp only [hseen, if_true]
        exact ⟨lo, hnext ((h.seen v).1 hseen)⟩
      · simp only [if_neg hseen]
        have hvn : ok v := hin u (h.inside u hul) v hedge
        have hopen := h.opened (by simpa using hseen) hvn (by rw [hs]; rintro f hf; cases hf; exact hedge)
        refine ⟨Function.update lo v s.order.length, ?_, ?_, ?_, ?_, ?_⟩
        · have := hopen.line
          simpa [Pass.line, Pass.opened, hs] using this
        · intro x
          have := hopen.seen x
          simpa [Pass.line, Pass.opened, hs] using this
        · have := hopen.inside
          simpa [Pass.line, Pass.opened, hs] using this
        · have := hopen.chain
          simpa [Pass.line, Pass.opened, hs] using this
        · intro f hf
          have hmem : ∀ x, x ∈ s.line →
              x ∈ ({ s with seen := Function.update s.seen v true, stack := (v, 0) :: (u, k + 1) :: rest } :
                Pass).line := by
            intro x hx
            rw [hline] at hx
            simp only [Pass.line, List.map_cons, List.mem_append, List.mem_cons] at hx ⊢
            tauto
          rcases List.mem_cons.1 hf with rfl | hf
          · exact ⟨Nat.zero_le _, fun i hi => absurd hi (Nat.not_lt_zero i)⟩
          · rcases List.mem_cons.1 hf with rfl | hf
            · refine ⟨hk', fun i hi x hx => ?_⟩
              rcases Nat.lt_succ_iff_lt_or_eq.1 hi with hi | rfl
              · exact hmem x (htried i hi x hx)
              · rw [hv] at hx
                cases hx
                simp [Pass.line]
            · obtain ⟨h1, h2⟩ := h.tried f (by rw [hs]; exact List.mem_cons_of_mem _ hf)
              exact ⟨h1, fun i hi x hx => hmem x (h2 i hi x hx)⟩

/-- **Every step costs.** -/
theorem cost_step {n : Nat} {s : Pass} {lo : Nat → Nat} (hin : ∀ u, ok u → ∀ v ∈ succ u, ok v) (hok : ∀ u, ok u → u < n)
    (h : Inv succ ok s lo) (hs : s.stack ≠ []) : cost succ n (s.step succ) < cost succ n s := by
  cases hstack : s.stack with
  | nil => exact absurd hstack hs
  | cons f rest =>
    obtain ⟨u, k⟩ := f
    have hul : u ∈ s.line := by simp [Pass.line, hstack]
    unfold cost Pass.step
    rw [hstack]
    simp only [List.map_cons, List.sum_cons]
    cases hv : (succ u)[k]? with
    | none =>
      simp only
      omega
    | some v =>
      have hk := (List.getElem?_eq_some_iff.1 hv).1
      by_cases hseen : s.seen v = true
      · simp only [hseen, if_true, List.map_cons, List.sum_cons]
        omega
      · simp only [if_neg hseen, List.map_cons, List.sum_cons]
        have hvn : v < n := hok v (hin u (h.inside u hul) v (List.mem_of_getElem? hv))
        have hfilter : (Finset.range n).filter (fun u => Function.update s.seen v true u = false) =
            ((Finset.range n).filter (fun u => s.seen u = false)).erase v := by
          ext x
          by_cases hxv : x = v
          · simp [hxv]
          · simp [hxv]
        have hmem : v ∈ (Finset.range n).filter (fun u => s.seen u = false) := by
          simp only [Finset.mem_filter, Finset.mem_range]
          exact ⟨hvn, by simpa using hseen⟩
        have hsum := Finset.add_sum_erase _ (fun u => (succ u).length + 2) hmem
        rw [hfilter]
        omega

theorem run_spec {n : Nat} (hin : ∀ u, ok u → ∀ v ∈ succ u, ok v) (hok : ∀ u, ok u → u < n) :
    ∀ (f : Nat) (s : Pass) (lo : Nat → Nat),
    Inv succ ok s lo → cost succ n s ≤ f → (run succ f s).stack = [] ∧ ∃ lo', Inv succ ok (run succ f s) lo'
  | 0, s, lo, h, hc => by
    cases hs : s.stack with
    | nil => exact ⟨hs, lo, h⟩
    | cons f rest =>
      have := cost_step hin hok h (by rw [hs]; simp)
      omega
  | f + 1, s, lo, h, hc => by
    unfold run
    cases hs : s.stack with
    | nil => exact ⟨hs, lo, h⟩
    | cons fr rest =>
      simp only
      obtain ⟨lo', h'⟩ := h.step hin
      have := cost_step hin hok h (by rw [hs]; simp)
      exact run_spec hin hok f _ lo' h' (by omega)

/-- A node once marked stays marked. -/
theorem seen_step (s : Pass) (v : Nat) (h : s.seen v = true) : (s.step succ).seen v = true := by
  unfold Pass.step
  split
  · exact h
  · split
    · exact h
    · rename_i w _
      split
      · exact h
      · by_cases hv : v = w
        · simp [hv]
        · simp [hv, h]

theorem seen_run : ∀ (f : Nat) (s : Pass) (v : Nat), s.seen v = true → (run succ f s).seen v = true
  | 0, _, _, h => h
  | f + 1, s, v, h => by
    unfold run
    split
    · exact h
    · exact seen_run f _ v (seen_step s v h)

theorem visit_spec {n start : Nat} {active : Nat → Bool} {s : Pass} {lo : Nat → Nat}
    (hin : ∀ u, ok u → ∀ v ∈ succ u, ok v) (hok : ∀ u, ok u → u < n) (h : Inv succ ok s lo) (hs : s.stack = [])
    (hn : active start = true → ok start) :
    (visit succ n active s start).stack = [] ∧ (∃ lo', Inv succ ok (visit succ n active s start) lo') ∧
      (active start = true → (visit succ n active s start).seen start = true) ∧
      ∀ v, s.seen v = true → (visit succ n active s start).seen v = true := by
  unfold visit
  split
  · rename_i hopen
    simp only [Bool.and_eq_true, Bool.not_eq_true'] at hopen
    have hinv := h.opened hopen.2 (hn hopen.1) (by rw [hs]; rintro f hf; cases hf)
    have hcost : cost succ n (s.opened start) ≤ fuel succ n := by
      unfold cost fuel
      have hfilter : (Finset.range n).filter (fun u => (s.opened start).seen u = false) ⊆
          (Finset.range n).erase start := by
        intro x hx
        obtain ⟨hxn, hxs⟩ := Finset.mem_filter.1 hx
        refine Finset.mem_erase.2 ⟨?_, hxn⟩
        rintro rfl
        simp [Pass.opened] at hxs
      have hle := Finset.sum_le_sum_of_subset (f := fun u => (succ u).length + 2) hfilter
      have hsum := Finset.add_sum_erase _ (fun u => (succ u).length + 2) (Finset.mem_range.2 (hok _ (hn hopen.1)))
      have hstack : (s.opened start).stack = [(start, 0)] := by simp [Pass.opened, hs]
      rw [hstack]
      simp only [List.map_cons, List.map_nil, List.sum_cons, List.sum_nil]
      omega
    obtain ⟨h1, h2⟩ := run_spec hin hok _ _ _ hinv hcost
    refine ⟨h1, h2, fun _ => seen_run _ _ _ (by simp [Pass.opened]), fun v hv => seen_run _ _ _ ?_⟩
    by_cases hvs : v = start
    · simp [Pass.opened, hvs]
    · simp [Pass.opened, hvs, hv]
  · rename_i hopen
    refine ⟨hs, ⟨lo, h⟩, fun ha => ?_, fun v hv => hv⟩
    simpa [ha] using hopen

theorem visits_spec {n : Nat} {active : Nat → Bool} (hin : ∀ u, ok u → ∀ v ∈ succ u, ok v) (hok : ∀ u, ok u → u < n) :
    ∀ (starts : List Nat) (s : Pass) (lo : Nat → Nat), Inv succ ok s lo → s.stack = [] →
    (∀ u ∈ starts, active u = true → ok u) →
      (starts.foldl (visit succ n active) s).stack = [] ∧
      (∃ lo', Inv succ ok (starts.foldl (visit succ n active) s) lo') ∧
      ∀ u, (s.seen u = true ∨ (u ∈ starts ∧ active u = true)) → (starts.foldl (visit succ n active) s).seen u = true
  | [], s, lo, h, hs, _ => ⟨hs, ⟨lo, h⟩, fun u hu => by simpa using hu⟩
  | start :: starts, s, lo, h, hs, hn => by
    obtain ⟨h1, ⟨lo', h2⟩, h3, h4⟩ := visit_spec hin hok h hs (hn start List.mem_cons_self)
    obtain ⟨h5, h6, h7⟩ := visits_spec hin hok starts _ lo' h2 h1 (fun u hu => hn u (List.mem_cons_of_mem _ hu))
    refine ⟨h5, h6, fun u hu => h7 u ?_⟩
    rcases hu with hu | ⟨hu, ha⟩
    · exact Or.inl (h4 u hu)
    · rcases List.mem_cons.1 hu with rfl | hu
      · exact Or.inl (h3 ha)
      · exact Or.inr ⟨hu, ha⟩

theorem inv_empty : Inv succ ok {} (fun _ => 0) := by
  refine ⟨Line.empty, ?_, ?_, List.isChain_nil, ?_⟩
  · intro u
    simp [Pass.line]
  · intro u hu
    cases hu
  · intro f hf
    cases hf

end Pass

/-- What a finishing order is good for: `lo` splits it for every node into what finished before the node was opened and
what it reaches. -/
structure Finished (succ : Nat → List Nat) (order : List Nat) (lo : Nat → Nat) : Prop where
  nodup : order.Nodup
  own : ∀ u a, order[a]? = some u → lo u ≤ a
  closed : ∀ w ∈ order, ∀ v ∈ succ w, v ∈ order
  below : ∀ u a, order[a]? = some u → ∀ i x, order[i]? = some x → lo u ≤ i → i < a → Reach succ u x
  escape : ∀ i w, order[i]? = some w → ∀ v ∈ succ w, ∀ b, order[b]? = some v → ∀ u a, order[a]? = some u → i < lo u →
    b < lo u ∨ a < b

/-- **The first pass lists exactly the active nodes**, in an order that splits. -/
theorem finishOrder_spec {n : Nat} {active : Nat → Bool}
    (hin : ∀ u, u < n → active u = true → ∀ v ∈ succ u, v < n ∧ active v = true) :
    (∃ lo, Finished succ (finishOrder succ n active) lo) ∧
      ∀ u, u ∈ finishOrder succ n active ↔ u < n ∧ active u = true := by
  have hvisits : ∀ s, s = (List.range n).foldl (Pass.visit succ n active) {} → s.stack = [] ∧
      (∃ lo, Pass.Inv succ (fun u => u < n ∧ active u = true) s lo) ∧
      ∀ u, u < n → active u = true → s.seen u = true := by
    rintro s rfl
    obtain ⟨h1, h2, h3⟩ := Pass.visits_spec (n := n) (fun u hu => hin u hu.1 hu.2) (fun u hu => hu.1) (List.range n) {}
      _ Pass.inv_empty rfl (fun u hu ha => ⟨List.mem_range.1 hu, ha⟩)
    exact ⟨h1, h2, fun u hu ha => h3 u (Or.inr ⟨List.mem_range.2 hu, ha⟩)⟩
  unfold finishOrder
  generalize hs : (List.range n).foldl (Pass.visit succ n active) {} = s
  obtain ⟨hstack, ⟨lo, h⟩, hall⟩ := hvisits s hs.symm
  have hline : s.line = s.order := by simp [Pass.line, hstack]
  have hl := h.line
  rw [hline] at hl
  have hlt : ∀ {i w : Nat}, s.order[i]? = some w → i < s.order.length := fun hw => (List.getElem?_eq_some_iff.1 hw).1
  refine ⟨⟨lo, hl.nodup, hl.own, ?_, ?_, ?_⟩, ?_⟩
  · intro w hw v hv
    obtain ⟨i, hi⟩ := List.mem_iff_getElem?.1 hw
    exact hl.done i w hi (hlt hi) v hv
  · intro u a hu i x hx hlow hia
    exact hl.below u a hu i x hx hlow hia (hlt hx)
  · intro i w hw v hv b hb u a hu hlow
    exact hl.escape i w hw (hlt hw) v hv b hb u a hu hlow
  · intro u
    rw [← hline]
    constructor
    · exact h.inside u
    · rintro ⟨hu, ha⟩
      exact (h.seen u).1 (hall u hu ha)

/-! ## The second pass -/

/-- The marks, the component collected so far, and the nodes whose predecessors are still to be looked at. -/
structure Sweep where
  seen : Nat → Bool
  component : List Nat
  stack : List Nat

namespace Sweep

def addParents : List Nat → Sweep → Sweep
  | [], s => s
  | p :: ps, s =>
    if s.seen p then addParents ps s
    else addParents ps ⟨Function.update s.seen p true, s.component ++ [p], p :: s.stack⟩

def run (pred : Nat → List Nat) : Nat → Sweep → Sweep
  | 0, s => s
  | f + 1, s => match s.stack with
    | [] => s
    | u :: rest => run pred f (addParents (pred u) { s with stack := rest })

end Sweep

/-- The components, in the order the second pass finds them. -/
def collect (pred : Nat → List Nat) (n : Nat) : List Nat → (Nat → Bool) → List (List Nat)
  | [], _ => []
  | u :: us, seen =>
    if seen u then collect pred n us seen
    else
      (Sweep.run pred n ⟨Function.update seen u true, [u], [u]⟩).component ::
        collect pred n us (Sweep.run pred n ⟨Function.update seen u true, [u], [u]⟩).seen

def components (succ pred : Nat → List Nat) (n : Nat) (active : Nat → Bool) : List (List Nat) :=
  collect pred n (finishOrder succ n active).reverse (fun _ => false)

/-- An edge between nodes outside a set of marks. -/
def Fresh (succ : Nat → List Nat) (seen : Nat → Bool) (u v : Nat) : Prop :=
  Edge succ u v ∧ seen u = false ∧ seen v = false

namespace Sweep

/-- What holds while the component of `start` is collected, the nodes in `seen₀` being collected before. -/
structure Inv (succ pred : Nat → List Nat) (order : List Nat) (seen₀ : Nat → Bool) (start : Nat) (s : Sweep) :
    Prop where
  seen : ∀ x, s.seen x = true ↔ seen₀ x = true ∨ x ∈ s.component
  fresh : ∀ x ∈ s.component, seen₀ x = false
  nodup : s.component.Nodup
  inside : ∀ x ∈ s.component, x ∈ order
  leads : ∀ x ∈ s.component, ReflTransGen (Fresh succ seen₀) x start
  stack : ∀ x ∈ s.stack, x ∈ s.component
  closed : ∀ x ∈ s.component, x ∉ s.stack → ∀ p ∈ pred x, s.seen p = true
  start : start ∈ s.component

theorem addParents_seen : ∀ (ps : List Nat) (s : Sweep) (v : Nat), s.seen v = true → (addParents ps s).seen v = true
  | [], _, _, h => h
  | p :: ps, s, v, h => by
    unfold addParents
    split
    · exact addParents_seen ps s v h
    · refine addParents_seen ps _ v ?_
      by_cases hv : v = p
      · simp [hv]
      · simp [hv, h]

variable {pred : Nat → List Nat} {order : List Nat} {seen₀ : Nat → Bool} {start : Nat}

/-- Looking at some predecessors of a collected node `u` keeps the invariant, `u` still open. -/
theorem Inv.addParents {u : Nat} : ∀ (ps : List Nat) (s : Sweep), (∀ p ∈ ps, Edge succ p u ∧ p ∈ order) →
    u ∈ s.component → Inv succ pred order seen₀ start { s with stack := u :: s.stack } →
    Inv succ pred order seen₀ start { Sweep.addParents ps s with stack := u :: (Sweep.addParents ps s).stack } ∧
      (∀ p ∈ ps, (Sweep.addParents ps s).seen p = true) ∧ u ∈ (Sweep.addParents ps s).component
  | [], s, _, hu, h => ⟨h, by simp, hu⟩
  | p :: ps, s, hps, hu, h => by
    have hps' : ∀ q ∈ ps, Edge succ q u ∧ q ∈ order := fun q hq => hps q (List.mem_cons_of_mem _ hq)
    unfold Sweep.addParents
    split
    · rename_i hseen
      obtain ⟨h1, h2, h3⟩ := Inv.addParents ps s hps' hu h
      refine ⟨h1, fun q hq => ?_, h3⟩
      rcases List.mem_cons.1 hq with rfl | hq
      · exact addParents_seen ps s q hseen
      · exact h2 q hq
    · rename_i hseen
      have hp₀ : seen₀ p = false := by
        by_contra hc
        exact hseen ((h.seen p).2 (Or.inl (by simpa using hc)))
      have hpc : p ∉ s.component := fun hc => hseen ((h.seen p).2 (Or.inr hc))
      obtain ⟨hedge, hord⟩ := hps p List.mem_cons_self
      have hnext : Inv succ pred order seen₀ start
          ⟨Function.update s.seen p true, s.component ++ [p], u :: p :: s.stack⟩ := by
        refine ⟨?_, ?_, ?_, ?_, ?_, ?_, ?_, List.mem_append_left _ h.start⟩
        · intro x
          have := h.seen x
          simp only at this
          by_cases hx : x = p
          · simp [hx]
          · simp [hx, this]
        · intro x hx
          rcases List.mem_append.1 hx with hx | hx
          · exact h.fresh x hx
          · rw [List.mem_singleton.1 hx]
            exact hp₀
        · exact List.nodup_append.2 ⟨h.nodup, List.nodup_singleton p, fun a ha b hb => by
            rw [List.mem_singleton.1 hb]
            rintro rfl
            exact hpc ha⟩
        · intro x hx
          rcases List.mem_append.1 hx with hx | hx
          · exact h.inside x hx
          · rw [List.mem_singleton.1 hx]
            exact hord
        · intro x hx
          rcases List.mem_append.1 hx with hx | hx
          · exact h.leads x hx
          · rw [List.mem_singleton.1 hx]
            exact .head ⟨hedge, hp₀, h.fresh u hu⟩ (h.leads u hu)
        · intro x hx
          rcases List.mem_cons.1 hx with rfl | hx
          · exact List.mem_append_left _ hu
          · rcases List.mem_cons.1 hx with rfl | hx
            · simp
            · exact List.mem_append_left _ (h.stack x (List.mem_cons_of_mem _ hx))
        · intro x hx hns q hq
          simp only [List.mem_cons, not_or] at hns
          rcases List.mem_append.1 hx with hx | hx
          · have := h.closed x hx (by simp [hns.1, hns.2.2]) q hq
            by_cases hqp : q = p
            · simp [hqp]
            · simpa [hqp] using this
          · exact absurd (List.mem_singleton.1 hx) hns.2.1
      -- the order of the two open nodes does not matter
      have hswap : Inv succ pred order seen₀ start
          { (⟨Function.update s.seen p true, s.component ++ [p], p :: s.stack⟩ : Sweep) with
            stack := u :: p :: s.stack } :=
        hnext
      obtain ⟨h1, h2, h3⟩ := Inv.addParents ps ⟨Function.update s.seen p true, s.component ++ [p], p :: s.stack⟩ hps'
        (List.mem_append_left _ hu) hswap
      refine ⟨h1, fun q hq => ?_, h3⟩
      rcases List.mem_cons.1 hq with rfl | hq
      · exact addParents_seen ps _ q (by simp)
      · exact h2 q hq

/-- Closing a node whose predecessors are all marked. -/
theorem Inv.close {u : Nat} {s : Sweep} (h : Inv succ pred order seen₀ start { s with stack := u :: s.stack })
    (hall : ∀ p ∈ pred u, s.seen p = true) : Inv succ pred order seen₀ start s := by
  refine ⟨h.seen, h.fresh, h.nodup, h.inside, h.leads, fun x hx => h.stack x (List.mem_cons_of_mem _ hx), ?_, h.start⟩
  intro x hx hns p hp
  by_cases hxu : x = u
  · exact hall p (hxu ▸ hp)
  · exact h.closed x hx (by simp [hxu, hns]) p hp

/-- The nodes not marked yet and the ones on the stack: what the loop can still pop. -/
def cost (order : List Nat) (s : Sweep) : Nat := (order.filter (fun x => !s.seen x)).length + s.stack.length

theorem cost_addParents : ∀ (ps : List Nat) (s : Sweep), (∀ p ∈ ps, p ∈ order) →
    cost order (Sweep.addParents ps s) ≤ cost order s
  | [], _, _ => Nat.le_refl _
  | p :: ps, s, hps => by
    have hps' : ∀ q ∈ ps, q ∈ order := fun q hq => hps q (List.mem_cons_of_mem _ hq)
    unfold Sweep.addParents
    split
    · exact cost_addParents ps s hps'
    · rename_i hseen
      refine Nat.le_trans (cost_addParents ps _ hps') ?_
      unfold cost
      have hlt : (order.filter (fun x => !(Function.update s.seen p true) x)).length <
          (order.filter (fun x => !s.seen x)).length := by
        have hsub : order.filter (fun x => !(Function.update s.seen p true) x) =
            (order.filter (fun x => !s.seen x)).filter (fun x => decide (x ≠ p)) := by
          rw [List.filter_filter]
          apply List.filter_congr
          intro x _
          by_cases hx : x = p
          · simp [hx]
          · simp [hx]
        rw [hsub]
        have hmem : p ∈ order.filter (fun x => !s.seen x) :=
          List.mem_filter.2 ⟨hps p List.mem_cons_self, by simpa using hseen⟩
        refine Nat.lt_of_le_of_ne (List.length_filter_le _ _) fun heq => ?_
        have := List.length_filter_eq_length_iff.1 heq p hmem
        simp at this
      simp only [List.length_cons]
      omega

theorem run_inv (hpred : ∀ v ∈ order, ∀ x, x ∈ pred v ↔ x ∈ order ∧ Edge succ x v) : ∀ (f : Nat) (s : Sweep),
    Inv succ pred order seen₀ start s → cost order s ≤ f →
      Inv succ pred order seen₀ start (run pred f s) ∧ (run pred f s).stack = []
  | 0, s, h, hc => by
    refine ⟨h, List.length_eq_zero_iff.1 ?_⟩
    unfold cost at hc
    simp only [run]
    omega
  | f + 1, s, h, hc => by
    unfold run
    split
    · rename_i hs
      exact ⟨h, hs⟩
    · rename_i u rest hs
      have hu : u ∈ s.component := h.stack u (by rw [hs]; exact List.mem_cons_self)
      have huo := h.inside u hu
      have hps : ∀ p ∈ pred u, Edge succ p u ∧ p ∈ order := fun p hp => ((hpred u huo p).1 hp).symm
      have h' : Inv succ pred order seen₀ start
          { ({ s with stack := rest } : Sweep) with stack := u :: ({ s with stack := rest } : Sweep).stack } := by
        have : s = { s with stack := u :: rest } := by rw [← hs]
        rw [this] at h
        exact h
      obtain ⟨h1, h2, -⟩ := h'.addParents (pred u) { s with stack := rest } hps hu
      have hclosed := h1.close h2
      have hcost := cost_addParents (pred u) { s with stack := rest } (fun p hp => (hps p hp).2)
      have hdrop : cost order { s with stack := rest } + 1 = cost order s := by
        unfold cost
        simp only [hs, List.length_cons]
        omega
      exact run_inv hpred f _ hclosed (by omega)

end Sweep

/-- What a list of components is: disjoint, strongly connected, covering, and listed along the edges. -/
structure Condensed (succ : Nat → List Nat) (nodes : Nat → Prop) (comps : List (List Nat)) : Prop where
  nonempty : ∀ c ∈ comps, c ≠ []
  nodup : ∀ c ∈ comps, c.Nodup
  cover : ∀ u, nodes u ↔ ∃ c ∈ comps, u ∈ c
  disjoint : comps.Pairwise (fun c c' => ∀ x ∈ c, x ∉ c')
  connected : ∀ c ∈ comps, ∀ x ∈ c, ∀ y ∈ c, Reach succ x y
  forward : ∀ pre c post, comps = pre ++ c :: post → ∀ u ∈ c, ∀ v ∈ succ u, v ∈ c ∨ ∃ c' ∈ post, v ∈ c'

/-- **A node found at the end of the unmarked order reaches every node that leads to it.** -/
theorem reach_of_leads {order : List Nat} {lo : Nat → Nat} (h : Finished succ order lo) {seen : Nat → Bool}
    {f start : Nat}
    (hstart : order[f]? = some start) (hlast : ∀ i x, order[i]? = some x → seen x = false → i ≤ f) {x : Nat}
    (hx : x ∈ order) (hx₀ : seen x = false) (hlead : ReflTransGen (Fresh succ seen) x start) : Reach succ start x := by
  obtain ⟨i, hi⟩ := List.mem_iff_getElem?.1 hx
  by_cases hlow : lo start ≤ i
  · rcases Nat.lt_or_eq_of_le (hlast i x hi hx₀) with hlt | rfl
    · exact h.below start f hstart i x hi hlow hlt
    · rw [hstart] at hi
      cases hi
      exact .refl
  · -- before `start` was opened: no edge leaves that part for a node that finishes no later than `start`
    exfalso
    have hstay : ∀ y, ReflTransGen (Fresh succ seen) x y → ∃ j, order[j]? = some y ∧ j < lo start := by
      intro y hy
      induction hy with
      | refl => exact ⟨i, hi, by omega⟩
      | tail _ hyz ih =>
        rename_i y z _
        obtain ⟨j, hj, hjlo⟩ := ih
        obtain ⟨hedge, -, hz₀⟩ := hyz
        obtain ⟨b, hb⟩ := List.mem_iff_getElem?.1 (h.closed _ (List.mem_of_getElem? hj) _ hedge)
        have hbf := hlast b _ hb hz₀
        rcases h.escape j _ hj _ hedge b hb start f hstart hjlo with h1 | h1
        · exact ⟨b, hb, h1⟩
        · omega
    obtain ⟨j, hj, hjlo⟩ := hstay start hlead
    have := h.own start j hj
    omega

theorem collect_spec {pred : Nat → List Nat} {order : List Nat} {lo : Nat → Nat} {n : Nat}
    (h : Finished succ order lo) (hpred : ∀ v ∈ order, ∀ x, x ∈ pred v ↔ x ∈ order ∧ Edge succ x v)
    (hn : order.length ≤ n) : ∀ (us tail : List Nat) (seen : Nat → Bool), order = us.reverse ++ tail →
    (∀ x ∈ tail, seen x = true) → (∀ x, seen x = true → x ∈ order) →
    (∀ x ∈ order, ∀ v ∈ succ x, seen v = true → seen x = true) →
      Condensed succ (fun u => u ∈ order ∧ seen u = false) (collect pred n us seen)
  | [], tail, seen, hsplit, htail, _, _ => by
    refine ⟨?_, ?_, ?_, List.Pairwise.nil, ?_, ?_⟩
    · intro c hc
      cases hc
    · intro c hc
      cases hc
    · intro u
      constructor
      · rintro ⟨hu, hs⟩
        rw [hsplit] at hu
        rw [htail u (by simpa using hu)] at hs
        cases hs
      · rintro ⟨c, hc, -⟩
        cases hc
    · intro c hc
      cases hc
    · intro pre c post hc
      simp [collect] at hc
  | u :: us, tail, seen, hsplit, htail, hin, hclosed => by
    have hsplit' : order = us.reverse ++ u :: tail := by
      rw [hsplit]
      simp
    have huo : u ∈ order := by
      rw [hsplit']
      simp
    unfold collect
    split
    · rename_i hu
      refine collect_spec h hpred hn us (u :: tail) seen hsplit' ?_ hin hclosed
      intro x hx
      rcases List.mem_cons.1 hx with rfl | hx
      · exact hu
      · exact htail x hx
    · rename_i hu
      have hu₀ : seen u = false := by simpa using hu
      -- the sweep from `u`
      have h₀ : Sweep.Inv succ pred order seen u ⟨Function.update seen u true, [u], [u]⟩ := by
        refine ⟨?_, ?_, List.nodup_singleton u, ?_, ?_, ?_, ?_, List.mem_singleton.2 rfl⟩
        · intro x
          by_cases hx : x = u
          · simp [hx]
          · simp [hx]
        · intro x hx
          rw [List.mem_singleton.1 hx]
          exact hu₀
        · intro x hx
          rw [List.mem_singleton.1 hx]
          exact huo
        · intro x hx
          rw [List.mem_singleton.1 hx]
        · intro x hx
          exact hx
        · intro x hx hns
          exact absurd hx hns
      have hcost : Sweep.cost order ⟨Function.update seen u true, [u], [u]⟩ ≤ n := by
        unfold Sweep.cost
        simp only [List.length_singleton]
        have hlt : (order.filter (fun x => !(Function.update seen u true) x)).length < order.length := by
          refine Nat.lt_of_le_of_ne (List.length_filter_le _ _) fun heq => ?_
          have := List.length_filter_eq_length_iff.1 heq u huo
          simp at this
        omega
      obtain ⟨hs, hempty⟩ := Sweep.run_inv hpred n _ h₀ hcost
      generalize hrun : Sweep.run pred n ⟨Function.update seen u true, [u], [u]⟩ = s at hs hempty
      have hus : order[us.length]? = some u := by
        rw [hsplit']
        simp
      have hlast : ∀ i x, order[i]? = some x → seen x = false → i ≤ us.length := by
        intro i x hi hx
        by_contra hc
        rw [hsplit', List.getElem?_append_right (by simp; omega), List.length_reverse] at hi
        obtain ⟨m, hm⟩ : ∃ m, i - us.length = m + 1 := ⟨i - us.length - 1, by omega⟩
        rw [hm, List.getElem?_cons_succ] at hi
        rw [htail x (List.mem_of_getElem? hi)] at hx
        cases hx
      have hrec := collect_spec h hpred hn us (u :: tail) s.seen hsplit'
        (by
          intro x hx
          rw [hs.seen]
          rcases List.mem_cons.1 hx with rfl | hx
          · exact Or.inr hs.start
          · exact Or.inl (htail x hx))
        (by
          intro x hx
          rcases (hs.seen x).1 hx with hx | hx
          · exact hin x hx
          · exact hs.inside x hx)
        (by
          intro x hx v hv hsv
          rcases (hs.seen v).1 hsv with hsv | hsv
          · exact (hs.seen x).2 (Or.inl (hclosed x hx v hv hsv))
          · refine hs.closed v hsv (by rw [hempty]; simp) x ?_
            exact (hpred v (hs.inside v hsv) x).2 ⟨hx, hv⟩)
      have hback : ∀ x ∈ s.component, Reach succ x u := fun x hx =>
        ReflTransGen.mono (fun _ _ hab => hab.1) _ _ (hs.leads x hx)
      have hforth : ∀ x ∈ s.component, Reach succ u x := fun x hx =>
        reach_of_leads h hus hlast (hs.inside x hx) (hs.fresh x hx) (hs.leads x hx)
      refine ⟨?_, ?_, ?_, ?_, ?_, ?_⟩
      · intro c hc
        rcases List.mem_cons.1 hc with rfl | hc
        · exact List.ne_nil_of_mem hs.start
        · exact hrec.nonempty c hc
      · intro c hc
        rcases List.mem_cons.1 hc with rfl | hc
        · exact hs.nodup
        · exact hrec.nodup c hc
      · intro x
        have hcov := hrec.cover x
        constructor
        · rintro ⟨hxo, hx₀⟩
          by_cases hxc : x ∈ s.component
          · exact ⟨_, List.mem_cons_self, hxc⟩
          · have hxs : s.seen x = false := by
              rw [← Bool.not_eq_true, hs.seen]
              simp [hx₀, hxc]
            obtain ⟨c, hc, hxc⟩ := hcov.1 ⟨hxo, hxs⟩
            exact ⟨c, List.mem_cons_of_mem _ hc, hxc⟩
        · rintro ⟨c, hc, hxc⟩
          rcases List.mem_cons.1 hc with rfl | hc
          · exact ⟨hs.inside x hxc, hs.fresh x hxc⟩
          · obtain ⟨hxo, hxs⟩ := hcov.2 ⟨c, hc, hxc⟩
            refine ⟨hxo, ?_⟩
            rw [← Bool.not_eq_true, hs.seen] at hxs
            simpa using fun hx => hxs (Or.inl hx)
      · refine List.pairwise_cons.2 ⟨fun c hc x hx hxc => ?_, hrec.disjoint⟩
        have := ((hrec.cover x).2 ⟨c, hc, hxc⟩).2
        rw [← Bool.not_eq_true, hs.seen] at this
        exact this (Or.inr hx)
      · intro c hc x hx y hy
        rcases List.mem_cons.1 hc with rfl | hc
        · exact (hback x hx).trans (hforth y hy)
        · exact hrec.connected c hc x hx y hy
      · intro pre c post hc x hx v hv
        cases pre with
        | nil =>
          simp only [List.nil_append, List.cons.injEq] at hc
          obtain ⟨rfl, rfl⟩ := hc
          by_cases hvc : v ∈ s.component
          · exact Or.inl hvc
          · -- an edge into what was collected before would have brought `x` along
            right
            have hxo := hs.inside x hx
            refine (hrec.cover v).1 ⟨h.closed x hxo v hv, ?_⟩
            rw [← Bool.not_eq_true, hs.seen]
            rintro (hv₀ | hv₀)
            · have := hclosed x hxo v hv hv₀
              rw [hs.fresh x hx] at this
              cases this
            · exact hvc hv₀
        | cons c₀ pre =>
          simp only [List.cons_append, List.cons.injEq] at hc
          exact hrec.forward pre c post hc.2 x hx v hv

/-- **The two passes find the strongly connected components**, listed along the edges. -/
theorem components_spec {pred : Nat → List Nat} {n : Nat} {active : Nat → Bool}
    (hin : ∀ u, u < n → active u = true → ∀ v ∈ succ u, v < n ∧ active v = true)
    (hpred : ∀ v x, x ∈ pred v ↔ (x < n ∧ active x = true) ∧ Edge succ x v) :
    Condensed succ (fun u => u < n ∧ active u = true) (components succ pred n active) := by
  obtain ⟨⟨lo, hfin⟩, hmem⟩ := finishOrder_spec hin
  have hlen : (finishOrder succ n active).length ≤ n := by
    have hsub : finishOrder succ n active ⊆ List.range n := fun u hu => List.mem_range.2 ((hmem u).1 hu).1
    have := (List.subperm_of_subset hfin.nodup hsub).length_le
    rwa [List.length_range] at this
  have h := collect_spec hfin (fun v _ x => by rw [hpred v x, hmem x]) hlen (finishOrder succ n active).reverse []
    (fun _ => false) (by simp) (by simp) (by simp) (by simp)
  refine ⟨h.nonempty, h.nodup, fun u => ?_, h.disjoint, h.connected, h.forward⟩
  unfold components
  rw [← hmem u, ← h.cover u]
  simp

/-! ## Paths inside a component -/

namespace Condensed
variable {nodes : Nat → Prop} {comps : List (List Nat)}

/-- From a later component one comes to later components only. -/
theorem later (h : Condensed succ nodes comps) {pre post : List (List Nat)} {c : List Nat}
    (hcomps : comps = pre ++ c :: post)
    {u v : Nat} (hu : ∃ c' ∈ post, u ∈ c') (huv : Reach succ u v) : ∃ c' ∈ post, v ∈ c' := by
  induction huv with
  | refl => exact hu
  | tail _ hedge ih =>
    obtain ⟨c', hc', hmem⟩ := ih
    obtain ⟨post₁, post₂, rfl⟩ := List.append_of_mem hc'
    rcases h.forward (pre ++ c :: post₁) c' post₂ (by rw [hcomps]; simp) _ hmem _ hedge with hin | ⟨c'', hc'', hin⟩
    · exact ⟨c', hc', hin⟩
    · exact ⟨c'', List.mem_append_right _ (List.mem_cons_of_mem _ hc''), hin⟩

/-- What lies on a path between two members is a member. -/
theorem between (h : Condensed succ nodes comps) {c : List Nat} (hc : c ∈ comps) {u v w : Nat} (hu : u ∈ c) (hw : w ∈ c)
    (huv : Reach succ u v) (hvw : Reach succ v w) : v ∈ c := by
  obtain ⟨pre, post, hcomps⟩ := List.append_of_mem hc
  have hpost : ∀ c' ∈ post, ∀ x ∈ c, x ∉ c' := by
    have hd := h.disjoint
    rw [hcomps, List.pairwise_append] at hd
    exact (List.pairwise_cons.1 hd.2.1).1
  induction huv with
  | refl => exact hu
  | tail _ hedge ih =>
    have hb := ih (.head hedge hvw)
    rcases h.forward pre c post hcomps _ hb _ hedge with hin | hlater
    · exact hin
    · obtain ⟨c', hc', hin⟩ := h.later hcomps hlater hvw
      exact absurd hin (hpost c' hc' w hw)

/-- **Members are connected by paths of members.** -/
theorem inside (h : Condensed succ nodes comps) {c : List Nat} (hc : c ∈ comps) {u w : Nat} (hu : u ∈ c) (hw : w ∈ c) :
    ReflTransGen (fun a b => a ∈ c ∧ b ∈ c ∧ b ∈ succ a) u w := by
  have hpath := h.connected c hc u hu w hw
  induction hpath using ReflTransGen.head_induction_on with
  | refl => exact .refl
  | head hedge hrest ih =>
    have hb := h.between hc hu hw (.single hedge) hrest
    exact .head ⟨hu, hb, hedge⟩ (ih hb)

end Condensed

end Components
