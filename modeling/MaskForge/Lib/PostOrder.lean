import Mathlib
/-!
# PostOrder — one depth-first pass that computes a value after its children's

The pass keeps a stack of frames: a node to open, or a node to close once what is above it is gone.  Closing computes
the node's value from the values present by then; a child still open, which is what a cycle leads back to, has none.
However the graph looks, the pass ends, closes every node once, and each value is a function of the values of nodes
closed before it (`run_spec`).
-/
namespace PostOrder

inductive Mark where
  | fresh
  | opened
  | closed
  deriving DecidableEq

structure State (ρ : Type) where
  stack : List (Nat × Bool)
  visit : Nat → Mark
  out : Nat → Option ρ

variable {ρ : Type} (n : Nat) (kids : Nat → List Nat) (est : Nat → (Nat → Option ρ) → ρ)

/-- The children in range that are still fresh, the last of them on top. -/
def pushKids (visit : Nat → Mark) (cs : List Nat) (stack : List (Nat × Bool)) : List (Nat × Bool) :=
  ((cs.filter fun c => decide (c < n) && decide (visit c = .fresh)).map (·, false)).reverse ++ stack

def step (s : State ρ) : State ρ :=
  match s.stack with
  | [] => s
  | (id, done) :: rest =>
    if n ≤ id then { s with stack := rest }
    else if done then
      { stack := rest, visit := Function.update s.visit id .closed, out := Function.update s.out id (some
        (est id s.out)) }
    else if s.visit id ≠ .fresh then { s with stack := rest }
    else
      let visit := Function.update s.visit id .opened
      { s with stack := pushKids n visit (kids id) ((id, true) :: rest), visit := visit }

def run : Nat → State ρ → State ρ
  | 0, s => s
  | f + 1, s => run f (step n kids est s)

def init : State ρ := ⟨(List.range n).map (·, false), fun _ => .fresh, fun _ => none⟩

/-- Steps that are enough: every frame is popped once, and every node opens at most once. -/
def fuel : Nat := n + ((List.range n).map fun v => (kids v).length + 1).sum

/-- Frames still to pop, and the frames that opening the fresh nodes can add. -/
def cost (s : State ρ) : Nat :=
  s.stack.length + ((List.range n).map fun v => if s.visit v = .fresh then (kids v).length + 1 else 0).sum

/-- The values are those of a closing order: each computed from the values closed before it. -/
structure Ordered (order : List Nat) (out : Nat → Option ρ) : Prop where
  nodup : order.Nodup
  mem_iff : ∀ v, v ∈ order ↔ out v ≠ none
  value : ∀ pre v post, order = pre ++ v :: post → out v = some (est v fun u => if u ∈ pre then out u else none)

/-- What the pass keeps: the closed nodes are in order, the open ones have a closing frame each, and a node not yet
opened has an opening frame. -/
structure Inv (s : State ρ) (order : List Nat) : Prop where
  ordered : Ordered est order s.out
  closed : ∀ v, s.visit v = .closed ↔ v ∈ order
  opened : ∀ v, (v, true) ∈ s.stack ↔ s.visit v = .opened
  once : (s.stack.filter (·.2)).Nodup
  pending : ∀ v < n, s.visit v = .fresh → (v, false) ∈ s.stack
  range : ∀ v, s.visit v ≠ .fresh → v < n

variable {n kids est}

theorem mem_pushKids_true {visit : Nat → Mark} {cs : List Nat} {stack : List (Nat × Bool)} {v : Nat} :
    (v, true) ∈ pushKids n visit cs stack ↔ (v, true) ∈ stack := by
  simp [pushKids]

theorem mem_pushKids_of_mem {visit : Nat → Mark} {cs : List Nat} {stack : List (Nat × Bool)} {f : Nat × Bool}
    (h : f ∈ stack) : f ∈ pushKids n visit cs stack := List.mem_append_right _ h

theorem filter_pushKids {visit : Nat → Mark} {cs : List Nat} {stack : List (Nat × Bool)} :
    (pushKids n visit cs stack).filter (·.2) = stack.filter (·.2) := by
  rw [pushKids, List.filter_append, List.filter_eq_nil_iff.2, List.nil_append]
  intro f hf
  obtain ⟨c, -, rfl⟩ := List.mem_map.1 (List.mem_reverse.1 hf)
  simp

theorem length_pushKids {visit : Nat → Mark} {cs : List Nat} {stack : List (Nat × Bool)} :
    (pushKids n visit cs stack).length ≤ cs.length + stack.length := by
  rw [pushKids, List.length_append, List.length_reverse, List.length_map]
  exact Nat.add_le_add_right (List.length_filter_le _ _) _

variable (n kids est) in
/-- **What a step does**: it drops a frame, closes a node or opens one. -/
theorem step_cases {s : State ρ} {id : Nat} {done : Bool} {rest : List (Nat × Bool)}
    (hs : s.stack = (id, done) :: rest) :
    ((n ≤ id ∨ done = false ∧ s.visit id ≠ .fresh) ∧ step n kids est s = { s with stack := rest }) ∨
    (id < n ∧ done = true ∧ step n kids est s =
      ⟨rest, Function.update s.visit id .closed, Function.update s.out id (some (est id s.out))⟩) ∨
    (id < n ∧ done = false ∧ s.visit id = .fresh ∧ step n kids est s =
      { s with
        stack := pushKids n (Function.update s.visit id .opened) (kids id) ((id, true) :: rest)
        visit := Function.update s.visit id .opened }) := by
  unfold step
  rw [hs]
  by_cases hid : n ≤ id
  · exact .inl ⟨.inl hid, by simp [hid]⟩
  · cases done with
    | true => exact .inr (.inl ⟨Nat.lt_of_not_le hid, rfl, by simp [hid]⟩)
    | false =>
      by_cases hv : s.visit id = .fresh
      · exact .inr (.inr ⟨Nat.lt_of_not_le hid, rfl, hv, by simp [hid, hv]⟩)
      · exact .inl ⟨.inr ⟨rfl, hv⟩, by simp [hid, hv]⟩

theorem Ordered.close {order : List Nat} {out : Nat → Option ρ} {id : Nat} (h : Ordered est order out)
    (hid : id ∉ order) :
    Ordered est (order ++ [id]) (Function.update out id (some (est id out))) := by
  have hne : ∀ u ∈ order, u ≠ id := fun u hu he => hid (he ▸ hu)
  refine ⟨List.nodup_append.2 ⟨h.nodup, List.nodup_singleton id, fun u hu v hv => ?_⟩, fun v => ?_,
    fun pre v post he => ?_⟩
  · rw [List.mem_singleton.1 hv]
    exact hne u hu
  · rw [List.mem_append, List.mem_singleton, h.mem_iff]
    by_cases hv : v = id
    · simp [hv]
    · simp [hv]
  · rcases List.eq_nil_or_concat post with rfl | ⟨post', last, rfl⟩
    · obtain ⟨rfl, hlast⟩ := List.append_inj' he rfl
      obtain rfl : id = v := by simpa using hlast
      rw [Function.update_self]
      congr 2
      funext u
      by_cases hu : u ∈ order
      · rw [if_pos hu, Function.update_of_ne (hne u hu)]
      · rw [if_neg hu]
        exact not_not.1 fun hn => hu ((h.mem_iff u).2 hn)
    · have he' : order ++ [id] = (pre ++ v :: post') ++ [last] := by rw [he, List.concat_eq_append]; simp
      obtain ⟨rfl, -⟩ := List.append_inj' he' rfl
      have hv : v ∈ pre ++ v :: post' := List.mem_append_right _ List.mem_cons_self
      rw [Function.update_of_ne (hne v hv), h.value pre v post' rfl]
      congr 2
      funext u
      by_cases hu : u ∈ pre
      · rw [if_pos hu, if_pos hu, Function.update_of_ne (hne u (List.mem_append_left _ hu))]
      · rw [if_neg hu, if_neg hu]

theorem Inv.init : Inv n est (init n : State ρ) [] where
  ordered := ⟨List.nodup_nil, fun v => by simp [PostOrder.init], fun pre v post h => by simp at h⟩
  closed v := by simp [PostOrder.init]
  opened v := by simp [PostOrder.init]
  once := by
    rw [List.filter_eq_nil_iff.2]
    · exact List.nodup_nil
    · intro f hf
      obtain ⟨c, -, rfl⟩ := List.mem_map.1 hf
      simp
  pending v hv _ := List.mem_map.2 ⟨v, List.mem_range.2 hv, rfl⟩
  range v hv := absurd rfl hv

theorem Inv.drop {s : State ρ} {order : List Nat} {id : Nat} {done : Bool} {rest : List (Nat × Bool)}
    (h : Inv n est s order) (hs : s.stack = (id, done) :: rest) (hskip : n ≤ id ∨ done = false ∧ s.visit id ≠ .fresh) :
    Inv n est { s with stack := rest } order := by
  -- a closing frame is in range, so the frame that goes is an opening one
  have hdone : done = false := by
    rcases hskip with hid | ⟨hd, -⟩
    · by_contra hd
      have hop := (h.opened id).1 (by rw [hs, Bool.eq_true_of_not_eq_false hd]; exact List.mem_cons_self)
      have hlt := h.range id (by rw [hop]; decide)
      omega
    · exact hd
  subst hdone
  refine ⟨h.ordered, h.closed, fun v => ?_, ?_, fun v hv hf => ?_, h.range⟩
  · rw [← h.opened v, hs]
    simp
  · have := h.once
    rw [hs] at this
    simpa using this
  · have hm := h.pending v hv hf
    rw [hs] at hm
    rcases List.mem_cons.1 hm with he | hm
    · obtain ⟨rfl, -⟩ := Prod.mk.inj he
      rcases hskip with hid | ⟨-, hn⟩
      · omega
      · exact absurd hf hn
    · exact hm

theorem Inv.close {s : State ρ} {order : List Nat} {id : Nat} {rest : List (Nat × Bool)} (h : Inv n est s order)
    (hs : s.stack = (id, true) :: rest) :
    Inv n est ⟨rest, Function.update s.visit id .closed, Function.update s.out id (some (est id s.out))⟩
      (order ++ [id]) := by
  have hop : s.visit id = .opened := (h.opened id).1 (by rw [hs]; exact List.mem_cons_self)
  have hnot : id ∉ order := fun hm => by
    have := (h.closed id).2 hm
    rw [hop] at this
    cases this
  have honce : (id, true) ∉ rest ∧ (rest.filter (·.2)).Nodup := by
    have := h.once
    rw [hs] at this
    simpa using this
  refine ⟨h.ordered.close hnot, fun v => ?_, fun v => ?_, honce.2, fun v hv hf => ?_, fun v hv => ?_⟩
  · rw [List.mem_append, List.mem_singleton, ← h.closed]
    by_cases he : v = id
    · simp [he]
    · simp [he]
  · dsimp only
    by_cases he : v = id
    · subst he
      simp [honce.1]
    · rw [Function.update_of_ne he, ← h.opened v, hs]
      simp [he]
  · dsimp only at hf ⊢
    by_cases he : v = id
    · rw [he, Function.update_self] at hf
      cases hf
    · rw [Function.update_of_ne he] at hf
      have hm := h.pending v hv hf
      rw [hs] at hm
      simpa [he] using hm
  · dsimp only at hv
    by_cases he : v = id
    · rw [he]
      exact h.range id (by rw [hop]; decide)
    · rw [Function.update_of_ne he] at hv
      exact h.range v hv

theorem Inv.open {s : State ρ} {order : List Nat} {id : Nat} {rest : List (Nat × Bool)} (h : Inv n est s order)
    (hs : s.stack = (id, false) :: rest) (hid : id < n) (hv : s.visit id = .fresh) (cs : List Nat) :
    Inv n est
      { s with
        stack := pushKids n (Function.update s.visit id .opened) cs ((id, true) :: rest)
        visit := Function.update s.visit id .opened } order := by
  have hrest : ∀ v, (v, true) ∈ rest ↔ s.visit v = .opened := by
    intro v
    rw [← h.opened v, hs]
    simp
  have hnew : (id, true) ∉ rest := by
    rw [hrest, hv]
    decide
  refine ⟨h.ordered, fun v => ?_, fun v => ?_, ?_, fun v hlt hf => ?_, fun v hf => ?_⟩
  · rw [← h.closed]
    by_cases he : v = id
    · simp [he, hv]
    · simp [he]
  · rw [mem_pushKids_true]
    by_cases he : v = id
    · simp [he]
    · simp [he, hrest]
  · have hn := h.once
    rw [hs] at hn
    rw [filter_pushKids]
    simpa [hnew] using hn
  · dsimp only at hf ⊢
    by_cases he : v = id
    · rw [he, Function.update_self] at hf
      cases hf
    · rw [Function.update_of_ne he] at hf
      have hm := h.pending v hlt hf
      rw [hs] at hm
      refine mem_pushKids_of_mem (List.mem_cons_of_mem _ ?_)
      simpa [he] using hm
  · dsimp only at hf
    by_cases he : v = id
    · exact he ▸ hid
    · rw [Function.update_of_ne he] at hf
      exact h.range v hf

/-- The frames the fresh nodes can add, after one of them is opened. -/
theorem sum_open {visit : Nat → Mark} {id : Nat} (hv : visit id = .fresh) (g : Nat → Nat) :
    ∀ {l : List Nat}, l.Nodup → id ∈ l →
      (l.map fun v => if Function.update visit id .opened v = .fresh then g v else 0).sum + g id =
        (l.map fun v => if visit v = .fresh then g v else 0).sum
  | [], _, hm => absurd hm List.not_mem_nil
  | v :: l, hnd, hm => by
    rw [List.nodup_cons] at hnd
    rw [List.map_cons, List.sum_cons, List.map_cons, List.sum_cons]
    by_cases he : v = id
    · subst he
      have hsame : (l.map fun u => if Function.update visit v .opened u = .fresh then g u else 0) =
          l.map fun u => if visit u = .fresh then g u else 0 := by
        refine List.map_congr_left fun u hu => ?_
        have hne : u ≠ v := fun heq => hnd.1 (heq ▸ hu)
        rw [Function.update_of_ne hne]
      rw [hsame, Function.update_self, if_neg (by decide), if_pos hv]
      omega
    · have ih := sum_open hv g hnd.2 (by simpa [Ne.symm he] using hm)
      rw [Function.update_of_ne he]
      omega

variable (kids) in
/-- One step keeps the invariant and costs something. -/
theorem Inv.step {s : State ρ} {order : List Nat} (h : Inv n est s order) (hne : s.stack ≠ []) :
    (∃ order', Inv n est (step n kids est s) order') ∧ cost n kids (PostOrder.step n kids est s) < cost n kids s := by
  obtain ⟨⟨id, done⟩, rest, hs⟩ := List.exists_cons_of_ne_nil hne
  rcases step_cases n kids est hs with ⟨hskip, he⟩ | ⟨hid, rfl, he⟩ | ⟨hid, rfl, hv, he⟩
  · rw [he]
    refine ⟨⟨order, h.drop hs hskip⟩, ?_⟩
    simp only [cost, hs, List.length_cons]
    omega
  · rw [he]
    refine ⟨⟨_, h.close hs⟩, ?_⟩
    have hop : s.visit id = .opened := (h.opened id).1 (by rw [hs]; exact List.mem_cons_self)
    have hsame : ∀ v, (Function.update s.visit id .closed v = .fresh) = (s.visit v = .fresh) := by
      intro v
      by_cases hv : v = id
      · simp [hv, hop]
      · simp [hv]
    simp only [cost, hs, List.length_cons, hsame]
    omega
  · rw [he]
    refine ⟨⟨order, h.open hs hid hv (kids id)⟩, ?_⟩
    have hsum := sum_open hv (fun v => (kids v).length + 1) List.nodup_range (List.mem_range.2 hid)
    have hlen : (pushKids n (Function.update s.visit id .opened) (kids id) ((id, true) :: rest)).length ≤ _ :=
      length_pushKids
    simp only [cost, hs, List.length_cons] at hlen ⊢
    omega

theorem run_inv : ∀ (f : Nat) {s : State ρ} {order : List Nat}, Inv n est s order → cost n kids s ≤ f →
    ∃ order', Inv n est (run n kids est f s) order' ∧ (run n kids est f s).stack = []
  | f, s, order, h, hc => by
    by_cases hs : s.stack = []
    · have hstay : step n kids est s = s := by
        unfold step
        rw [hs]
      have hrun : run n kids est f s = s := by
        clear hc
        induction f with
        | zero => rfl
        | succ f ih => rw [run, hstay, ih]
      rw [hrun]
      exact ⟨order, h, hs⟩
    · obtain ⟨⟨order', h'⟩, hlt⟩ := h.step kids hs
      cases f with
      | zero => omega
      | succ f =>
        rw [run]
        exact run_inv f h' (by omega)

variable (n kids est) in
/-- **The pass ends with its stack empty, and its values are those of a closing order of all nodes.** -/
theorem run_spec : (run n kids est (fuel n kids) (init n)).stack = [] ∧
    ∃ order, Ordered est order (run n kids est (fuel n kids) (init n)).out ∧ ∀ v, v ∈ order ↔ v < n := by
  have hcost : cost n kids (init n : State ρ) ≤ fuel n kids := by simp [cost, init, fuel]
  have hinit : Inv n est (init n) [] := Inv.init
  obtain ⟨order, hinv, hend⟩ := run_inv (fuel n kids) hinit hcost
  refine ⟨hend, order, hinv.ordered, fun v => ⟨fun hv => ?_, fun hv => ?_⟩⟩
  · exact hinv.range v (by rw [(hinv.closed v).2 hv]; decide)
  · cases hm : (run n kids est (fuel n kids) (init n)).visit v with
    | fresh =>
      have := hinv.pending v hv hm
      rw [hend] at this
      exact absurd this List.not_mem_nil
    | opened =>
      have := (hinv.opened v).2 hm
      rw [hend] at this
      exact absurd this List.not_mem_nil
    | closed => exact (hinv.closed v).1 hm

section
variable {order : List Nat} {out : Nat → Option ρ} {P : ρ → Prop}

/-- A value that can only come from children with such values came after them. -/
theorem Ordered.kid (h : Ordered est order out)
    (hP : ∀ v view, P (est v view) → ∀ c ∈ kids v, ∃ r, view c = some r ∧ P r) {v c : Nat} {r : ρ} (hv : out v = some r)
    (hr : P r) (hc : c ∈ kids v) : order.idxOf c < order.idxOf v ∧ ∃ r', out c = some r' ∧ P r' := by
  have hmem : v ∈ order := (h.mem_iff v).2 (by rw [hv]; exact Option.some_ne_none r)
  obtain ⟨pre, post, he⟩ := List.append_of_mem hmem
  have hval := h.value pre v post he
  rw [hv, Option.some.injEq] at hval
  rw [hval] at hr
  obtain ⟨r', hview, hr'⟩ := hP v _ hr c hc
  by_cases hpre : c ∈ pre
  · rw [if_pos hpre] at hview
    have hnot : v ∉ pre := fun hm => by
      have := h.nodup
      rw [he, List.nodup_append] at this
      exact this.2.2 v hm v List.mem_cons_self rfl
    refine ⟨?_, r', hview, hr'⟩
    rw [he, List.idxOf_append_of_mem hpre, List.idxOf_append_of_notMem hnot, List.idxOf_cons_self, Nat.add_zero]
    exact List.idxOf_lt_length_iff.2 hpre
  · rw [if_neg hpre] at hview
    cases hview

/-- **Such values are closed under reachability, and never on a cycle.** -/
theorem Ordered.reach (h : Ordered est order out)
    (hP : ∀ v view, P (est v view) → ∀ c ∈ kids v, ∃ r, view c = some r ∧ P r) {v u : Nat} {r : ρ} (hv : out v = some r)
    (hr : P r) (hu : Relation.TransGen (fun a b => b ∈ kids a) v u) :
    order.idxOf u < order.idxOf v ∧ ∃ r', out u = some r' ∧ P r' := by
  induction hu with
  | single hc => exact h.kid hP hv hr hc
  | tail _ hc ih =>
    obtain ⟨hlt, r', hout, hr'⟩ := ih
    obtain ⟨hlt', h'⟩ := h.kid hP hout hr' hc
    exact ⟨Nat.lt_trans hlt' hlt, h'⟩

end

end PostOrder
