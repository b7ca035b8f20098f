import MaskForge.Lib.Forest
import MaskForge.Lib.Trim
/-!
# LabelTrie — a trie as rows of edges

Words are inserted one after another; each shares the nodes of the longest start it has in common with one before.  The
nodes are a labelled forest, a row has one edge for each letter, and the words inserted are the labels of the accepting
nodes, so the rows accept exactly those.
-/
namespace LabelTrie

variable {α ε : Type}

/-- Whether a word ends at a node, and the node's edges. -/
abbrev Rows (α : Type) := List (Bool × List (α × Nat))

section
variable [DecidableEq α]

/-- The node behind a letter, opened if there is none and room for one. -/
def nextOrInsert (cap : Nat) (full : ε) (rows : Rows α) (node : Nat) (a : α) : Except ε (Rows α × Nat) :=
  match rows[node]?.bind (·.2.lookup a) with
  | some target => .ok (rows, target)
  | none =>
    if cap ≤ rows.length then .error full
    else .ok ((rows ++ [(false, [])]).modify node (fun row => (row.1, row.2 ++ [(a, rows.length)])), rows.length)

def walk (cap : Nat) (full : ε) (rows : Rows α) (node : Nat) : List α → Except ε (Rows α × Nat)
  | [] => .ok (rows, node)
  | a :: word => do
    let (rows, node) ← nextOrInsert cap full rows node a
    walk cap full rows node word

def insert (cap : Nat) (full : ε) (rows : Rows α) (word : List α) : Except ε (Rows α) := do
  let (rows, node) ← walk cap full rows 0 word
  .ok (rows.modify node fun row => (true, row.2))

def build (cap : Nat) (full : ε) (words : List (List α)) : Except ε (Rows α) :=
  words.foldlM (insert cap full) [(false, [])]

end

/-! ### What a trie spells -/

def kids (rows : Rows α) (i : Nat) : List (α × Nat) := (rows[i]?.map Prod.snd).getD []

def ends (rows : Rows α) (i : Nat) : Bool := (rows[i]?.map Prod.fst).getD false

/-- **A trie spells the words inserted**: they are the labels of its accepting nodes. -/
structure Spells (rows : Rows α) (lbl : Nat → List α) (done : List (List α)) : Prop where
  labelled : Forest.Labelled (kids rows) rows.length lbl
  reached : Forest.Reached (kids rows) rows.length lbl
  tidy : Explore.Tidy rows
  sound : ∀ i, ends rows i = true → lbl i ∈ done
  complete : ∀ w ∈ done, ∃ i, i < rows.length ∧ lbl i = w ∧ ends rows i = true

variable {rows rows' : Rows α} {lbl : Nat → List α} {done : List (List α)} {cap : Nat} {full : ε}

theorem kids_eq {i : Nat} {row : Bool × List (α × Nat)} (h : rows[i]? = some row) : kids rows i = row.2 := by
  rw [kids, h]
  rfl

variable [DecidableEq α]

theorem lookup_iff (htidy : Explore.Tidy rows) {i j : Nat} {a : α} :
    rows[i]?.bind (·.2.lookup a) = some j ↔ (a, j) ∈ kids rows i := by
  cases h : rows[i]? with
  | none => simp [kids, h]
  | some row =>
    rw [kids_eq h, Option.bind_some]
    refine ⟨fun hl => ?_, fun hmem => Explore.lookup_mem (htidy row (List.mem_of_getElem? h)) hmem⟩
    obtain ⟨before, after, heq, _⟩ := List.lookup_eq_some_iff.1 hl
    rw [heq]
    simp

/-- The rows accept where a path leads to an end. -/
theorem accepts_iff (htidy : Explore.Tidy rows) : ∀ {w : List α} {i : Nat},
    Explore.accepts rows i w = true ↔ ∃ j, Forest.Path (kids rows) i w j ∧ ends rows j = true
  | [], i => by
    constructor
    · exact fun h => ⟨i, .nil i, h⟩
    · rintro ⟨j, hpath, hj⟩
      cases hpath
      exact hj
  | a :: w, i => by
    rw [Explore.accepts]
    constructor
    · intro h
      split at h
      · rename_i k hk
        obtain ⟨j, hpath, hj⟩ := (accepts_iff htidy).1 h
        exact ⟨j, .cons ((lookup_iff htidy).1 hk) hpath, hj⟩
      · cases h
    · rintro ⟨j, hpath, hj⟩
      cases hpath with
      | cons hk hpath =>
        rw [(lookup_iff htidy).2 hk]
        exact (accepts_iff htidy).2 ⟨j, hpath, hj⟩

/-- **A trie accepts what it spells.** -/
theorem Spells.accepts (h : Spells rows lbl done) (w : List α) : Explore.accepts rows 0 w = true ↔ w ∈ done := by
  rw [accepts_iff h.tidy]
  constructor
  · rintro ⟨j, hpath, hj⟩
    obtain ⟨hlbl, _⟩ := hpath.label h.labelled h.labelled.inhabited
    rw [h.labelled.root, List.nil_append] at hlbl
    exact hlbl ▸ h.sound j hj
  · intro hw
    obtain ⟨i, hi, rfl, hend⟩ := h.complete w hw
    exact ⟨i, h.reached i hi, hend⟩

/-! ### Insertion -/

/-- A trie under way: the node reached spells the letters read. -/
structure At (rows : Rows α) (lbl : Nat → List α) (done : List (List α)) (node : Nat) (word : List α) :
    Prop extends Spells rows lbl done where
  lt : node < rows.length
  spelled : lbl node = word

omit [DecidableEq α] in
theorem getElem?_opened {node i : Nat} {a : α} (hnode : node < rows.length) :
    ((rows ++ [(false, [])]).modify node (fun row => (row.1, row.2 ++ [(a, rows.length)])))[i]? =
      if i = rows.length then some (false, []) else (rows[i]?.map fun row => if i = node
        then (row.1, row.2 ++ [(a, rows.length)]) else row) := by
  rw [List.getElem?_modify, Option.map_eq_map]
  by_cases hi : i = rows.length
  · subst hi
    rw [if_pos rfl, List.getElem?_concat_length, Option.map_some, if_neg (Nat.ne_of_lt hnode)]
  · rw [if_neg hi]
    rcases Nat.lt_or_ge i rows.length with hlt | hge
    · rw [List.getElem?_append_left hlt]
      simp only [eq_comm]
    · rw [List.getElem?_eq_none (by rw [List.length_append, List.length_singleton]; omega), List.getElem?_eq_none hge]
      rfl

/-- **A letter opens at most one leaf.** -/
theorem At.next {node : Nat} {word : List α} (h : At rows lbl done node word) {a : α} {rows' : Rows α} {node' : Nat}
    (hnext : nextOrInsert cap full rows node a = .ok (rows', node')) :
    ∃ lbl', At rows' lbl' done node' (word ++ [a]) := by
  unfold nextOrInsert at hnext
  split at hnext
  · rename_i target htarget
    cases hnext
    obtain ⟨hlbl, _, hlt⟩ := h.labelled.edge node h.lt _ ((lookup_iff h.tidy).1 htarget)
    exact ⟨lbl, h.toSpells, hlt, by rw [hlbl, h.spelled]⟩
  · rename_i hnone
    split at hnext
    · cases hnext
    · cases hnext
      have hget := fun i => @getElem?_opened α rows node i a h.lt
      generalize hopened : (rows ++ [(false, [])]).modify node (fun row => (row.1, row.2 ++ [(a, rows.length)])) =
        opened at hget
      have hlen : opened.length = rows.length + 1 := by
        rw [← hopened, List.length_modify, List.length_append, List.length_singleton]
      have hkids : ∀ i, kids opened i = if i = node then kids rows i ++ [(a, rows.length)] else kids rows i := by
        intro i
        rw [kids, hget, kids]
        by_cases hi : i = rows.length
        · rw [if_pos hi, if_neg (by have := h.lt; omega), hi, List.getElem?_eq_none (Nat.le_refl _)]
          rfl
        · rw [if_neg hi]
          by_cases hin : i = node
          · subst hin
            rw [List.getElem?_eq_getElem h.lt]
            simp
          · simp [hin]
      have hgrown : Forest.Grown (kids rows) (kids opened) rows.length node a := by
        intro i kc
        rw [hkids]
        by_cases hin : i = node
        · simp [hin]
        · simp [hin]
      have hfresh : kids rows rows.length = [] := by rw [kids, List.getElem?_eq_none (Nat.le_refl _)]; rfl
      have hends : ∀ i, ends opened i = ends rows i := by
        intro i
        rw [ends, hget, ends]
        by_cases hi : i = rows.length
        · rw [if_pos hi, hi, List.getElem?_eq_none (Nat.le_refl _)]
          rfl
        · rw [if_neg hi, Option.map_map]
          congr 2
          funext row
          dsimp only [Function.comp]
          split <;> rfl
      have hlbl : ∀ i, i < rows.length → Function.update lbl rows.length (lbl node ++ [a]) i = lbl i := fun i hi =>
        Function.update_of_ne (Nat.ne_of_lt hi) _ _
      have hendLt : ∀ {i}, ends rows i = true → i < rows.length := by
        intro i hi
        by_contra hge
        rw [ends, List.getElem?_eq_none (Nat.le_of_not_lt hge)] at hi
        cases hi
      refine ⟨_, ⟨hlen ▸ h.labelled.grow h.lt hfresh hgrown, hlen ▸ h.reached.grow h.lt hgrown, ?_, fun i hi => ?_,
        fun w hw => ?_⟩,
        by rw [hlen]; omega, by rw [Function.update_self, h.spelled]⟩
      · intro row hrow
        obtain ⟨i, hi⟩ := List.mem_iff_getElem?.1 hrow
        rw [hget] at hi
        split at hi
        · cases hi
          exact List.nodup_nil
        · obtain ⟨old, hold, rfl⟩ := Option.map_eq_some_iff.1 hi
          have hnodup := h.tidy old (List.mem_of_getElem? hold)
          split
          · rename_i hin
            subst hin
            dsimp only
            rw [hold, Option.bind_some] at hnone
            rw [List.map_append, List.map_singleton, ← List.concat_eq_append]
            refine List.Nodup.concat (fun hmem => ?_) hnodup
            obtain ⟨e, he, rfl⟩ := List.mem_map.1 hmem
            exact bne_iff_ne.1 (List.lookup_eq_none_iff.1 hnone _ he) rfl
          · exact hnodup
      · rw [hends] at hi
        rw [hlbl i (hendLt hi)]
        exact h.sound i hi
      · obtain ⟨i, hi, hw, hend⟩ := h.complete w hw
        exact ⟨i, by rw [hlen]; omega, by rw [hlbl i hi, hw], by rw [hends]; exact hend⟩

theorem At.walk : ∀ {rest word : List α} {node : Nat} {rows : Rows α} {lbl : Nat → List α} {rows' : Rows α}
    {node' : Nat},
    At rows lbl done node word → LabelTrie.walk cap full rows node rest = .ok (rows', node') →
      ∃ lbl', At rows' lbl' done node' (word ++ rest)
  | [], word, node, rows, lbl, rows', node', h, hwalk => by
    cases hwalk
    exact ⟨lbl, by rw [List.append_nil]; exact h⟩
  | a :: rest, word, node, rows, lbl, rows', node', h, hwalk => by
    rw [LabelTrie.walk] at hwalk
    cases hnext : nextOrInsert cap full rows node a with
    | error e =>
      rw [hnext] at hwalk
      cases hwalk
    | ok r =>
      rw [hnext] at hwalk
      obtain ⟨lbl₁, h₁⟩ := h.next hnext
      obtain ⟨lbl₂, h₂⟩ := h₁.walk hwalk
      exact ⟨lbl₂, by rwa [List.append_assoc] at h₂⟩

/-- **An insertion adds its word.** -/
theorem Spells.insert (h : Spells rows lbl done) {word : List α}
    (hinsert : LabelTrie.insert cap full rows word = .ok rows') :
    ∃ lbl', Spells rows' lbl' (word :: done) := by
  unfold LabelTrie.insert at hinsert
  cases hwalk : LabelTrie.walk cap full rows 0 word with
  | error e =>
    rw [hwalk] at hinsert
    cases hinsert
  | ok r =>
    obtain ⟨rows₁, node⟩ := r
    rw [hwalk] at hinsert
    cases hinsert
    obtain ⟨lbl₁, h₁⟩ := At.walk ⟨h, h.labelled.inhabited, h.labelled.root⟩ hwalk
    rw [List.nil_append] at h₁
    have hget : ∀ i, (rows₁.modify node fun row => (true, row.2))[i]? = rows₁[i]?.map fun row => if node = i
      then (true, row.2) else row := fun i => by
      rw [List.getElem?_modify, Option.map_eq_map]
    have hkids : kids (rows₁.modify node fun row => (true, row.2)) = kids rows₁ := by
      funext i
      rw [kids, hget, kids, Option.map_map]
      congr 2
      funext row
      dsimp only [Function.comp]
      split <;> rfl
    have hends : ∀ i, ends (rows₁.modify node fun row => (true, row.2)) i = true ↔ i = node ∨ ends rows₁ i = true := by
      intro i
      rw [ends, hget, ends]
      by_cases hi : node = i
      · subst hi
        rw [List.getElem?_eq_getElem h₁.lt]
        simp
      · simp [hi, Ne.symm hi]
    refine ⟨lbl₁, ?_, ?_, ?_, fun i hi => ?_, fun w hw => ?_⟩
    · rw [hkids, List.length_modify]
      exact h₁.labelled
    · rw [hkids, List.length_modify]
      exact h₁.reached
    · intro row hrow
      obtain ⟨i, hi⟩ := List.mem_iff_getElem?.1 hrow
      rw [hget] at hi
      obtain ⟨old, hold, rfl⟩ := Option.map_eq_some_iff.1 hi
      have hnodup := h₁.tidy old (List.mem_of_getElem? hold)
      split <;> exact hnodup
    · rcases (hends i).1 hi with rfl | hi
      · rw [h₁.spelled]
        exact List.mem_cons_self
      · exact List.mem_cons_of_mem _ (h₁.sound i hi)
    · rw [List.length_modify]
      rcases List.mem_cons.1 hw with rfl | hw
      · exact ⟨node, h₁.lt, h₁.spelled, (hends node).2 (.inl rfl)⟩
      · obtain ⟨i, hi, hw, hend⟩ := h₁.complete w hw
        exact ⟨i, hi, hw, (hends i).2 (.inr hend)⟩

omit [DecidableEq α] in
/-- The trie of no word. -/
theorem spells_empty : Spells (α := α) [(false, [])] (fun _ => []) [] := by
  have hkids : ∀ i, kids (α := α) [(false, [])] i = [] := by
    intro i
    cases i with
    | zero => rfl
    | succ i => rfl
  refine ⟨⟨rfl, Nat.one_pos, fun i _ kc hkc => ?_⟩, fun i hi => ?_, fun row hrow => ?_, fun i hi => ?_, fun w hw =>
    absurd hw List.not_mem_nil⟩
  · rw [hkids] at hkc
    cases hkc
  · rw [List.length_singleton, Nat.lt_one_iff] at hi
    subst hi
    exact .nil 0
  · rw [List.mem_singleton.1 hrow]
    exact List.nodup_nil
  · cases i with
    | zero => cases hi
    | succ i => cases hi

/-- **The trie of some words spells those.** -/
theorem build_spells {words : List (List α)} (h : build cap full words = .ok rows) :
    ∃ lbl, Spells rows lbl words.reverse := by
  have hrun : ∀ (words : List (List α)) {rows rows' : Rows α} {lbl : Nat → List α} {done : List (List α)},
    Spells rows lbl done →
      words.foldlM (LabelTrie.insert cap full) rows = .ok rows' → ∃ lbl',
        Spells rows' lbl' (words.reverse ++ done) := by
    intro words
    induction words with
    | nil =>
      intro rows rows' lbl done h hrun
      cases hrun
      exact ⟨lbl, h⟩
    | cons word words ih =>
      intro rows rows' lbl done h hrun
      rw [List.foldlM_cons] at hrun
      cases hinsert : LabelTrie.insert cap full rows word with
      | error e =>
        rw [hinsert] at hrun
        cases hrun
      | ok rows₁ =>
        rw [hinsert] at hrun
        obtain ⟨lbl₁, h₁⟩ := h.insert hinsert
        obtain ⟨lbl₂, h₂⟩ := ih h₁ hrun
        exact ⟨lbl₂, by rw [List.reverse_cons, List.append_assoc]; exact h₂⟩
  obtain ⟨lbl, hspells⟩ := hrun words spells_empty h
  rw [List.append_nil] at hspells
  exact ⟨lbl, hspells⟩

/-- **The trie of some words accepts exactly those.** -/
theorem build_accepts {words : List (List α)} (h : build cap full words = .ok rows) (w : List α) :
    Explore.accepts rows 0 w = true ↔ w ∈ words := by
  obtain ⟨lbl, hspells⟩ := build_spells h
  rw [hspells.accepts, List.mem_reverse]

theorem walk_error {err : ε} :
    ∀ {word : List α} {rows : Rows α} {node : Nat}, walk cap full rows node word = .error err → err = full
  | [], _, _, h => by cases h
  | a :: word, rows, node, h => by
    rw [walk] at h
    cases hnext : nextOrInsert cap full rows node a with
    | error e =>
      rw [hnext] at h
      cases h
      unfold nextOrInsert at hnext
      split at hnext
      · cases hnext
      · split at hnext
        · exact (Except.error.inj hnext).symm
        · cases hnext
    | ok r =>
      rw [hnext] at h
      exact walk_error h

/-- A trie is refused for want of room only. -/
theorem build_error {words : List (List α)} {err : ε} (h : build cap full words = .error err) : err = full := by
  have hrun : ∀ (words : List (List α)) (rows : Rows α), words.foldlM (LabelTrie.insert cap full) rows = .error err →
    err = full := by
    intro words
    induction words with
    | nil =>
      intro rows h
      cases h
    | cons word words ih =>
      intro rows h
      rw [List.foldlM_cons] at h
      unfold LabelTrie.insert at h
      cases hwalk : walk cap full rows 0 word with
      | error e =>
        rw [hwalk] at h
        cases h
        exact walk_error hwalk
      | ok r =>
        rw [hwalk] at h
        exact ih _ h
  exact hrun words _ h

end LabelTrie
