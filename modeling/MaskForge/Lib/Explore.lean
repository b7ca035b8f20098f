import Mathlib
/-!
# Explore — the keys a machine reaches, numbered breadth first

A machine leads from a key by each letter to another key or nowhere.  The exploration numbers keys as it meets them and
writes one row of numbers for each, in the order of the numbers; a machine may refuse to go on when it has met too many.
An exploration that ends has a row for every key it numbered, and its rows follow the machine (`explore_ok`).
-/
namespace Explore

variable {K α ε : Type}

/-- What is explored.  `room` is asked of the number of keys before a new one is stored, `edge` of the numbers of
keys and edges after each edge, `rowEnd` of the number of edges after each row; `lost` is the error for a number
without a key. -/
structure Machine (K α ε : Type) where
  accept : K → Bool
  next : K → α → Except ε (Option K)
  room : Nat → Except ε Unit
  edge : Nat → Nat → Except ε Unit
  rowEnd : Nat → Except ε Unit
  lost : ε

structure State (K α : Type) where
  keys : List K
  queue : List Nat
  rows : List (Bool × List (α × Nat))
  edges : Nat

section
variable [DecidableEq K] (m : Machine K α ε)

/-- A key's number: its position among the keys met so far. -/
def intern (k : K) (s : State K α) : Except ε (Nat × State K α) :=
  match s.keys.idxOf? k with
  | some id => .ok (id, s)
  | none => do
    m.room s.keys.length
    return (s.keys.length, { s with keys := s.keys ++ [k], queue := s.queue ++ [s.keys.length] })

/-- The row of one key, letter by letter. -/
def expand (k : K) : List α → List (α × Nat) → State K α → Except ε (List (α × Nat) × State K α)
  | [], row, s => .ok (row, s)
  | a :: as, row, s => do
    match ← m.next k a with
    | none => expand k as row s
    | some k' => do
      let (id, s) ← intern m k' s
      m.edge s.keys.length (s.edges + 1)
      expand k as (row ++ [(a, id)]) { s with edges := s.edges + 1 }

def run (letters : List α) : Nat → State K α → Except ε (State K α)
  | 0, s => .ok s
  | f + 1, s => match s.queue with
    | [] => .ok s
    | id :: rest => match s.keys[id]? with
      | none => .error m.lost
      | some k => do
        let (row, s) ← expand m k letters [] { s with queue := rest }
        m.rowEnd s.edges
        run letters f { s with rows := s.rows ++ [(m.accept k, row)] }

/-- The whole exploration from one key, with that key's number. -/
def explore (letters : List α) (fuel : Nat) (start : K) : Except ε (Nat × State K α) := do
  let (id, s) ← intern m start ⟨[], [], [], 0⟩
  let s ← run m letters fuel s
  return (id, s)

end

/-- The key after a word; `none` once the machine leads nowhere. -/
def follow (m : Machine K α ε) : K → List α → Option K
  | k, [] => some k
  | k, a :: as => match m.next k a with
    | .ok (some k') => follow m k' as
    | _ => none

theorem follow_append (m : Machine K α ε) :
    ∀ (a b : List α) (k : K), follow m k (a ++ b) = (follow m k a).bind (follow m · b)
  | [], _, _ => rfl
  | x :: a, b, k => by
    rw [List.cons_append, follow, follow]
    split
    · exact follow_append m a b _
    · rfl

/-- A row follows the machine on some letters. -/
def RowOf [BEq α] (m : Machine K α ε) (keys : List K) (k : K) (letters : List α) (row : List (α × Nat)) : Prop :=
  ∀ a ∈ letters, (m.next k a = .ok none ∧ row.lookup a = none) ∨
    ∃ k' id, m.next k a = .ok (some k') ∧ row.lookup a = some id ∧ keys[id]? = some k'

/-- The keys met, and the numbers from `base` on still waiting. -/
structure Keyed (m : Machine K α ε) (start : K) (base : Nat) (s : State K α) : Prop where
  nodup : s.keys.Nodup
  first : s.keys[0]? = some start
  base_le : base ≤ s.keys.length
  queue : s.queue = List.range' base (s.keys.length - base)
  reached : ∀ k ∈ s.keys, ∃ w, follow m start w = some k

/-- Between two rows. -/
structure Inv [BEq α] (m : Machine K α ε) (letters : List α) (start : K) (s : State K α) : Prop
    extends Keyed m start s.rows.length s where
  rowsOf : ∀ (i : Nat) (state : Bool × List (α × Nat)), s.rows[i]? = some state →
    ∃ k, s.keys[i]? = some k ∧ state.1 = m.accept k ∧ RowOf m s.keys k letters state.2

/-- The machine refuses more than `cap` keys. -/
def Caps (m : Machine K α ε) (cap : Nat) : Prop :=
  ∀ n e, m.room n = .ok () → m.edge (n + 1) e = .ok () → n + 1 ≤ cap

section
variable {m : Machine K α ε} {letters : List α} {start : K} {cap base : Nat} {s s' : State K α}

theorem getElem?_of_le {keys keys' : List K} (hpre : keys <+: keys') {i : Nat} {k : K} (h : keys[i]? = some k) :
    keys'[i]? = some k := by
  obtain ⟨more, rfl⟩ := hpre
  rw [List.getElem?_append_left (List.getElem?_eq_some_iff.1 h).1]
  exact h

theorem RowOf.mono [BEq α] {keys keys' : List K} {k : K} {row : List (α × Nat)} (h : RowOf m keys k letters row)
    (hpre : keys <+: keys') :
    RowOf m keys' k letters row := by
  intro a ha
  rcases h a ha with h | ⟨k', id, hnext, hrow, hid⟩
  · exact .inl h
  · exact .inr ⟨k', id, hnext, hrow, getElem?_of_le hpre hid⟩

theorem intern_ok [DecidableEq K] {k : K} {id : Nat} (h : intern m k s = .ok (id, s')) (hs : Keyed m start base s)
    (hk : ∃ w, follow m start w = some k) :
    Keyed m start base s' ∧ s.keys <+: s'.keys ∧ s'.keys[id]? = some k ∧ s'.rows = s.rows ∧ s'.edges = s.edges ∧
      (s'.keys.length = s.keys.length ∨ s'.keys.length = s.keys.length + 1 ∧ m.room s.keys.length = .ok ()) := by
  unfold intern at h
  split at h
  · rename_i i hi
    cases h
    obtain ⟨hlt, heq, _⟩ := List.idxOf?_eq_some_iff.1 hi
    exact ⟨hs, List.prefix_rfl, by rw [List.getElem?_eq_getElem hlt, heq], rfl, rfl, .inl rfl⟩
  · rename_i hnone
    cases hroom : m.room s.keys.length with
    | error e =>
      rw [hroom] at h
      cases h
    | ok u =>
      rw [hroom] at h
      cases h
      have hlen : (s.keys ++ [k]).length = s.keys.length + 1 := List.length_append
      have hfirst := (List.getElem?_eq_some_iff.1 hs.first).1
      refine ⟨⟨?_, ?_, ?_, ?_, ?_⟩, List.prefix_append _ _, List.getElem?_concat_length, rfl, rfl, .inr ⟨hlen, rfl⟩⟩
      · rw [← List.concat_eq_append]
        exact hs.nodup.concat (List.idxOf?_eq_none_iff.1 hnone)
      · rw [List.getElem?_append_left hfirst]
        exact hs.first
      · have := hs.base_le
        rw [hlen]
        omega
      · have hle := hs.base_le
        have hmore : s.keys.length + 1 - base = s.keys.length - base + 1 := by omega
        rw [hlen, hmore, List.range'_1_concat, ← hs.queue, Nat.add_sub_of_le hle]
      · intro k' hk'
        rcases List.mem_append.1 hk' with hk' | hk'
        · exact hs.reached k' hk'
        · rw [List.mem_singleton.1 hk']
          exact hk

/-- **A row follows the machine**, and the keys met stay numbered. -/
theorem expand_ok [DecidableEq K] [DecidableEq α] {B : Nat → Prop}
    (hcap : ∀ n e, m.room n = .ok () → m.edge (n + 1) e = .ok () → B (n + 1)) {k : K}
    (hk : ∃ w, follow m start w = some k) : ∀ {as : List α} (done : List α)
    {row row' : List (α × Nat)} {s s' : State K α}, (done ++ as).Nodup → (∀ a ∈ as, row.lookup a = none) →
    expand m k as row s = .ok (row', s') → Keyed m start base s → B s.keys.length → RowOf m s.keys k done row →
      Keyed m start base s' ∧ B s'.keys.length ∧ s.keys <+: s'.keys ∧ s'.rows = s.rows ∧
      RowOf m s'.keys k (done ++ as) row'
  | [], done, row, row', s, s', _, _, h, hs, hlen, hrow => by
    cases h
    rw [List.append_nil]
    exact ⟨hs, hlen, List.prefix_rfl, rfl, hrow⟩
  | a :: as, done, row, row', s, s', hnodup, hfresh, h, hs, hlen, hrow => by
    have hassoc : done ++ a :: as = (done ++ [a]) ++ as := by rw [List.append_assoc]; rfl
    have ha := hfresh a List.mem_cons_self
    rw [expand] at h
    cases hnext : m.next k a with
    | error e =>
      rw [hnext] at h
      cases h
    | ok target =>
      rw [hnext] at h
      cases target with
      | none =>
        have hrow' : RowOf m s.keys k (done ++ [a]) row := by
          intro b hb
          rcases List.mem_append.1 hb with hb | hb
          · exact hrow b hb
          · rw [List.mem_singleton.1 hb]
            exact .inl ⟨hnext, ha⟩
        rw [hassoc] at hnodup ⊢
        exact expand_ok hcap hk _ hnodup (fun b hb => hfresh b (List.mem_cons_of_mem _ hb)) h hs hlen hrow'
      | some k' =>
        change (intern m k' s >>= fun r => _) = _ at h
        cases hintern : intern m k' s with
        | error e =>
          rw [hintern] at h
          cases h
        | ok r =>
          obtain ⟨id, s₁⟩ := r
          rw [hintern] at h
          change (m.edge s₁.keys.length (s₁.edges + 1) >>= fun _ => _) = _ at h
          obtain ⟨w, hw⟩ := hk
          have hreach : ∃ w, follow m start w = some k' := by
            refine ⟨w ++ [a], ?_⟩
            rw [follow_append, hw, Option.bind_some, follow, hnext]
            rfl
          obtain ⟨hs₁, hpre, hid, hrows, _, hgrown⟩ := intern_ok hintern hs hreach
          cases hedge : m.edge s₁.keys.length (s₁.edges + 1) with
          | error e =>
            rw [hedge] at h
            cases h
          | ok u =>
            rw [hedge] at h
            have hlen₁ : B s₁.keys.length := by
              rcases hgrown with hsame | ⟨hgrown, hroom⟩
              · rw [hsame]
                exact hlen
              · rw [hgrown] at hedge ⊢
                exact hcap _ _ hroom hedge
            have hother : ∀ b, b ≠ a → (row ++ [(a, id)]).lookup b = row.lookup b := by
              intro b hb
              rw [List.lookup_append, List.lookup_cons, beq_eq_false_iff_ne.2 hb]
              exact Option.or_none
            have hself : (row ++ [(a, id)]).lookup a = some id := by
              rw [List.lookup_append, ha, Option.none_or, List.lookup_cons, beq_self_eq_true]
            rw [hassoc] at hnodup
            have hdisjoint := List.nodup_append.1 hnodup
            have hrow' : RowOf m s₁.keys k (done ++ [a]) (row ++ [(a, id)]) := by
              intro b hb
              rcases List.mem_append.1 hb with hb | hb
              · have hne : b ≠ a := (List.nodup_append.1 hdisjoint.1).2.2 b hb a List.mem_cons_self
                rw [hother b hne]
                exact hrow.mono hpre b hb
              · rw [List.mem_singleton.1 hb]
                exact .inr ⟨k', id, hnext, hself, hid⟩
            have hfresh' : ∀ b ∈ as, (row ++ [(a, id)]).lookup b = none := by
              intro b hb
              rw [hother b (Ne.symm (hdisjoint.2.2 a (List.mem_append_right _ List.mem_cons_self) b hb))]
              exact hfresh b (List.mem_cons_of_mem _ hb)
            have hs₂ : Keyed m start base { s₁ with edges := s₁.edges + 1 } :=
              ⟨hs₁.nodup, hs₁.first, hs₁.base_le, hs₁.queue, hs₁.reached⟩
            rw [hassoc]
            obtain ⟨hend, hlenEnd, hpreEnd, hrowsEnd, hrowEnd⟩ :=
              expand_ok hcap ⟨w, hw⟩ _ hnodup hfresh' h hs₂ hlen₁ hrow'
            exact ⟨hend, hlenEnd, hpre.trans hpreEnd, hrowsEnd.trans hrows, hrowEnd⟩

/-- A run keeps the rows in step with the keys; it stops with an empty queue or when the rounds are used up. -/
theorem run_ok [DecidableEq K] [DecidableEq α] {B : Nat → Prop}
    (hcap : ∀ n e, m.room n = .ok () → m.edge (n + 1) e = .ok () → B (n + 1)) (hletters : letters.Nodup) :
    ∀ {f : Nat} {s s' : State K α}, run m letters f s = .ok s' → Inv m letters start s → B s.keys.length →
      Inv m letters start s' ∧ B s'.keys.length ∧ (s'.queue = [] ∨ s'.rows.length = f + s.rows.length)
  | 0, s, s', h, hs, hlen => by
    cases h
    exact ⟨hs, hlen, .inr (Nat.zero_add _).symm⟩
  | f + 1, s, s', h, hs, hlen => by
    rw [run] at h
    split at h
    · rename_i hq
      cases h
      exact ⟨hs, hlen, .inl hq⟩
    · rename_i id rest hq
      split at h
      · cases h
      · rename_i k hk
        have hqueue := hs.queue
        rw [hq] at hqueue
        -- the first number waiting is that of the next row
        have hpos : 0 < s.keys.length - s.rows.length := by
          rcases Nat.eq_zero_or_pos (s.keys.length - s.rows.length) with h0 | hpos
          · rw [h0] at hqueue
            cases hqueue
          · exact hpos
        obtain ⟨n, hn⟩ := Nat.exists_eq_succ_of_ne_zero (Nat.ne_of_gt hpos)
        rw [hn, List.range'_succ, List.cons.injEq] at hqueue
        obtain ⟨rfl, hrest⟩ := hqueue
        change (expand m k letters [] { s with queue := rest } >>= fun r => _) = _ at h
        have hs₀ : Keyed m start (s.rows.length + 1) { s with queue := rest } := by
          refine ⟨hs.nodup, hs.first, by dsimp only; omega, ?_, hs.reached⟩
          dsimp only
          rw [hrest]
          congr 1
          omega
        cases hexpand : expand m k letters [] { s with queue := rest } with
        | error e =>
          rw [hexpand] at h
          cases h
        | ok r =>
          obtain ⟨row, s₁⟩ := r
          rw [hexpand] at h
          change (m.rowEnd s₁.edges >>= fun _ => _) = _ at h
          obtain ⟨hs₁, hlen₁, hpre, hrows, hrow⟩ := expand_ok hcap (hs.reached k (List.mem_of_getElem? hk)) []
            (by rwa [List.nil_append]) (fun _ _ => rfl) hexpand hs₀ hlen (fun _ h => absurd h List.not_mem_nil)
          cases hend : m.rowEnd s₁.edges with
          | error e =>
            rw [hend] at h
            cases h
          | ok u =>
            rw [hend] at h
            dsimp only at hrows hpre
            rw [List.nil_append] at hrow
            have hlenRows : (s₁.rows ++ [(m.accept k, row)]).length = s.rows.length + 1 := by
              rw [List.length_append, hrows]; rfl
            have hinv : Inv m letters start { s₁ with rows := s₁.rows ++ [(m.accept k, row)] } := by
              refine ⟨⟨hs₁.nodup, hs₁.first, ?_, ?_, hs₁.reached⟩, ?_⟩
              · dsimp only
                rw [hlenRows]
                exact hs₁.base_le
              · dsimp only
                rw [hlenRows]
                exact hs₁.queue
              · intro i state hi
                dsimp only at hi
                rw [hrows] at hi
                rcases Nat.lt_or_ge i s.rows.length with hlt | hge
                · rw [List.getElem?_append_left hlt] at hi
                  obtain ⟨k', hk', hacc, hof⟩ := hs.rowsOf i state hi
                  exact ⟨k', getElem?_of_le hpre hk', hacc, hof.mono hpre⟩
                · rw [List.getElem?_append_right hge, List.getElem?_singleton] at hi
                  split at hi
                  · rename_i hi0
                    cases hi
                    have hid : i = s.rows.length := by omega
                    rw [hid]
                    exact ⟨k, getElem?_of_le hpre hk, rfl, hrow⟩
                  · cases hi
            obtain ⟨hend, hlenEnd, hstop⟩ := run_ok hcap hletters h hinv hlen₁
            refine ⟨hend, hlenEnd, hstop.imp_right fun hrounds => ?_⟩
            dsimp only at hrounds
            omega

/-- **An exploration numbers what it reaches**: the start is number zero and each row follows the machine
from its key. -/
theorem explore_inv [DecidableEq K] [DecidableEq α] {B : Nat → Prop}
    (hcap : ∀ n e, m.room n = .ok () → m.edge (n + 1) e = .ok () → B (n + 1)) (hpos : B 1) (hletters : letters.Nodup)
    {f id : Nat} (h : explore m letters f start = .ok (id, s)) :
    id = 0 ∧ Inv m letters start s ∧ B s.keys.length ∧ (s.queue = [] ∨ s.rows.length = f) := by
  unfold explore at h
  change (m.room 0 >>= fun _ => _) >>= _ = _ at h
  cases hroom : m.room 0 with
  | error e =>
    rw [hroom] at h
    cases h
  | ok u =>
    rw [hroom] at h
    change (run m letters f ⟨[start], [0], [], 0⟩ >>= fun s => Except.ok (0, s)) = _ at h
    cases hrun : run m letters f ⟨[start], [0], [], 0⟩ with
    | error e =>
      rw [hrun] at h
      cases h
    | ok s' =>
      rw [hrun] at h
      cases h
      have hinv : Inv m letters start ⟨[start], [0], [], 0⟩ := by
        refine ⟨⟨List.nodup_singleton start, rfl, Nat.zero_le _, rfl, ?_⟩, ?_⟩
        · intro k hk
          rw [List.mem_singleton.1 hk]
          exact ⟨[], rfl⟩
        · intro i state hi
          cases hi
      exact ⟨rfl, run_ok hcap hletters hrun hinv hpos⟩

/-- Once the queue is empty every number has its row. -/
theorem Inv.all_rows [BEq α] (hs : Inv m letters start s) (hq : s.queue = []) : s.rows.length = s.keys.length := by
  have hle := hs.base_le
  have hempty := congrArg List.length hs.queue
  rw [hq, List.length_nil, List.length_range'] at hempty
  omega

/-- **An exploration that cannot run out of rounds has a row for every number.** -/
theorem explore_ok [DecidableEq K] [DecidableEq α] (hcap : Caps m cap) (hpos : 1 ≤ cap) (hletters : letters.Nodup)
    {f id : Nat} (hf : cap ≤ f) (h : explore m letters f start = .ok (id, s)) :
    id = 0 ∧ Inv m letters start s ∧ s.rows.length = s.keys.length := by
  obtain ⟨hid, hinv, hlen, hstop⟩ := explore_inv (B := (· ≤ cap)) hcap hpos hletters h
  refine ⟨hid, hinv, ?_⟩
  rcases hstop with hq | hrounds
  · exact hinv.all_rows hq
  · have := hinv.base_le
    omega

/-- Every number is a key's. -/
theorem Inv.row [BEq α] (hs : Inv m letters start s) (hall : s.rows.length = s.keys.length) {i : Nat} {k : K}
    (hk : s.keys[i]? = some k) :
    ∃ row, s.rows[i]? = some (m.accept k, row) ∧ RowOf m s.keys k letters row := by
  have hlt : i < s.rows.length := hall ▸ (List.getElem?_eq_some_iff.1 hk).1
  obtain ⟨k', hk', hacc, hrow⟩ := hs.rowsOf i _ (List.getElem?_eq_getElem hlt)
  rw [hk] at hk'
  cases hk'
  exact ⟨_, by rw [List.getElem?_eq_getElem hlt, ← hacc], hrow⟩

end

/-! ### Words -/

/-- Whether a word leads from a number to an accepting row. -/
def accepts [BEq α] (rows : List (Bool × List (α × Nat))) : Nat → List α → Bool
  | i, [] => (rows[i]?.map Prod.fst).getD false
  | i, a :: w => match rows[i]?.bind (·.2.lookup a) with
    | some j => accepts rows j w
    | none => false

section
variable {m : Machine K α ε} {letters : List α} {start : K} {s : State K α}

/-- **The rows accept what the machine does.** -/
theorem Inv.accepts_eq_follow [BEq α] (hs : Inv m letters start s) (hall : s.rows.length = s.keys.length) (w : List α) :
    (∀ a ∈ w, a ∈ letters) → ∀ {i : Nat} {k : K}, s.keys[i]? = some k →
      accepts s.rows i w = ((follow m k w).map m.accept).getD false := by
  induction w with
  | nil =>
    intro _ i k hk
    obtain ⟨row, hrow, _⟩ := hs.row hall hk
    rw [accepts, hrow]
    rfl
  | cons a w ih =>
    intro hw i k hk
    obtain ⟨row, hrow, hof⟩ := hs.row hall hk
    rw [accepts, hrow, Option.bind_some, follow]
    rcases hof a (hw a List.mem_cons_self) with ⟨hnext, hnone⟩ | ⟨k', j, hnext, hsome, hj⟩
    · rw [hnext, hnone]
      rfl
    · rw [hnext, hsome]
      exact ih (fun b hb => hw b (List.mem_cons_of_mem _ hb)) hj

/-- **The subset construction.**  Where every key stands for a set of states of an automaton and the machine steps as
the automaton does, the rows accept its language. -/
theorem Inv.accepts_iff_eval [BEq α] {σ : Type} {M : εNFA α σ} (denote : K → Set σ) (hs : Inv m letters start s)
    (hall : s.rows.length = s.keys.length) (hletters : ∀ a, a ∈ letters) (hstart : denote start = M.εClosure M.start)
    (hdead : ∀ k a, m.next k a = .ok none → M.stepSet (denote k) a = ∅)
    (hnext : ∀ k a k', m.next k a = .ok (some k') → denote k' = M.stepSet (denote k) a)
    (haccept : ∀ k, m.accept k = true ↔ ∃ q ∈ M.accept, q ∈ denote k) (w : List α) :
    accepts s.rows 0 w = true ↔ w ∈ M.accepts := by
  have hempty : ∀ w : List α, w.foldl M.stepSet ∅ = ∅ := by
    intro w
    induction w with
    | nil => rfl
    | cons a w ih => rw [List.foldl_cons, M.stepSet_empty, ih]
  have hgen : ∀ (w : List α) (i : Nat) (k : K), s.keys[i]? = some k →
      (accepts s.rows i w = true ↔ ∃ q ∈ M.accept, q ∈ w.foldl M.stepSet (denote k)) := by
    intro w
    induction w with
    | nil =>
      intro i k hk
      obtain ⟨row, hrow, _⟩ := hs.row hall hk
      rw [accepts, hrow]
      exact haccept k
    | cons a w ih =>
      intro i k hk
      obtain ⟨row, hrow, hof⟩ := hs.row hall hk
      rw [accepts, hrow, Option.bind_some, List.foldl_cons]
      rcases hof a (hletters a) with ⟨hn, hnone⟩ | ⟨k', j, hn, hsome, hj⟩
      · rw [hnone, hdead k a hn, hempty]
        simp
      · rw [hsome, ← hnext k a k' hn]
        exact ih j k' hj
  rw [hgen w 0 start hs.first, hstart]
  rfl

end

/-! ### Errors -/

/-- The ways a machine fails. -/
structure Machine.Fails (m : Machine K α ε) (F : ε → Prop) : Prop where
  next : ∀ k a err, m.next k a = .error err → F err
  room : ∀ n err, m.room n = .error err → F err
  edge : ∀ n e err, m.edge n e = .error err → F err
  rowEnd : ∀ e err, m.rowEnd e = .error err → F err
  lost : F m.lost

section
variable [DecidableEq K] {m : Machine K α ε} {F : ε → Prop} {err : ε}

theorem intern_error (hm : m.Fails F) {k : K} {s : State K α} (h : intern m k s = .error err) : F err := by
  unfold intern at h
  split at h
  · cases h
  · cases hroom : m.room s.keys.length with
    | error e =>
      rw [hroom] at h
      cases h
      exact hm.room _ _ hroom
    | ok u =>
      rw [hroom] at h
      cases h

theorem expand_error (hm : m.Fails F) {k : K} : ∀ {as : List α} {row : List (α × Nat)} {s : State K α},
    expand m k as row s = .error err → F err
  | [], _, _, h => by cases h
  | a :: as, row, s, h => by
    rw [expand] at h
    cases hnext : m.next k a with
    | error e =>
      rw [hnext] at h
      cases h
      exact hm.next _ _ _ hnext
    | ok target =>
      rw [hnext] at h
      cases target with
      | none => exact expand_error hm h
      | some k' =>
        change (intern m k' s >>= fun r => _) = _ at h
        cases hintern : intern m k' s with
        | error e =>
          rw [hintern] at h
          cases h
          exact intern_error hm hintern
        | ok r =>
          rw [hintern] at h
          change (m.edge r.2.keys.length (r.2.edges + 1) >>= fun _ => _) = _ at h
          cases hedge : m.edge r.2.keys.length (r.2.edges + 1) with
          | error e =>
            rw [hedge] at h
            cases h
            exact hm.edge _ _ _ hedge
          | ok u =>
            rw [hedge] at h
            exact expand_error hm h

theorem run_error (hm : m.Fails F) {letters : List α} :
    ∀ {f : Nat} {s : State K α}, run m letters f s = .error err → F err
  | 0, _, h => by cases h
  | f + 1, s, h => by
    rw [run] at h
    split at h
    · cases h
    split at h
    · cases h
      exact hm.lost
    · rename_i id rest _ _ k _
      change (expand m k letters [] { s with queue := rest } >>= fun r => _) = _ at h
      cases hexpand : expand m k letters [] { s with queue := rest } with
      | error e =>
        rw [hexpand] at h
        cases h
        exact expand_error hm hexpand
      | ok r =>
        rw [hexpand] at h
        change (m.rowEnd r.2.edges >>= fun _ => _) = _ at h
        cases hend : m.rowEnd r.2.edges with
        | error e =>
          rw [hend] at h
          cases h
          exact hm.rowEnd _ _ hend
        | ok u =>
          rw [hend] at h
          exact run_error hm h

/-- **An exploration fails as its machine does.** -/
theorem explore_error (hm : m.Fails F) {letters : List α} {f : Nat} {start : K}
    (h : explore m letters f start = .error err) : F err := by
  unfold explore at h
  cases hintern : intern m start ⟨[], [], [], 0⟩ with
  | error e =>
    rw [hintern] at h
    cases h
    exact intern_error hm hintern
  | ok r =>
    rw [hintern] at h
    change (run m letters f r.2 >>= fun s => Except.ok (r.1, s)) = _ at h
    cases hrun : run m letters f r.2 with
    | error e =>
      rw [hrun] at h
      cases h
      exact run_error hm hrun
    | ok s' =>
      rw [hrun] at h
      cases h

end

end Explore
