import MaskForge.Lib.LabelTrie
/-!
# PathMerge — words laid as paths between fixed states

The first rows are the main states; a word is laid from one of them to another, through inner states it shares with the
words laid before as far as it starts like them.  Where no word from a state is the start of another (`Coded`), sharing
never leads a word astray: no path is refused for the one letter it ends in, and from a main state the rows read exactly
the words laid, one after another (`Laid.accepts`).
-/
namespace PathMerge

open LabelTrie (Rows kids ends)

variable {α ε : Type}

/-- One more edge. -/
def push (rows : Rows α) (i : Nat) (e : α × Nat) : Rows α := rows.modify i fun row => (row.1, row.2 ++ [e])

/-- Lays a word from `current` to `target`.  A letter there is already is followed, and the last one must lead
to `target`. -/
def addPath [DecidableEq α] (cap : Nat) (full clash : ε) (rows : Rows α) (current target : Nat) :
    List α → Except ε (Rows α)
  | [] => .ok rows
  | a :: word =>
    match rows[current]?.bind (·.2.lookup a) with
    | some existing =>
      if word = [] ∧ existing ≠ target then .error clash else addPath cap full clash rows existing target word
    | none =>
      if word = [] then .ok (push rows current (a, target))
      else if cap ≤ rows.length then .error full
      else addPath cap full clash (push (rows ++ [(false, [])]) current (a, rows.length)) rows.length target word

/-! ### Rows -/

section Rows

variable {rows : Rows α}

theorem length_push (i : Nat) (e : α × Nat) : (push rows i e).length = rows.length := List.length_modify _ _ _

theorem getElem?_push (i q : Nat) (e : α × Nat) :
    (push rows i e)[q]? = rows[q]?.map fun row => if i = q then (row.1, row.2 ++ [e]) else row := by
  rw [push, List.getElem?_modify]
  rfl

theorem kids_push {i : Nat} (hi : i < rows.length) (q : Nat) (e : α × Nat) :
    kids (push rows i e) q = if i = q then kids rows q ++ [e] else kids rows q := by
  unfold kids
  rw [getElem?_push]
  by_cases h : i = q
  · subst h
    rw [if_pos rfl, List.getElem?_eq_getElem hi]
    simp
  · simp only [if_neg h, Option.map_map]
    rfl

theorem ends_push (i q : Nat) (e : α × Nat) : ends (push rows i e) q = ends rows q := by
  unfold ends
  rw [getElem?_push]
  cases rows[q]? with
  | none => rfl
  | some row =>
    simp only [Option.map_some, Option.getD_some]
    split <;> rfl

theorem getElem?_snoc (q : Nat) :
    (rows ++ [(false, [])])[q]? = if q = rows.length then some (false, []) else rows[q]? := by
  by_cases h : q = rows.length
  · rw [if_pos h, h, List.getElem?_concat_length]
  · rw [if_neg h]
    rcases Nat.lt_or_ge q rows.length with hlt | hge
    · rw [List.getElem?_append_left hlt]
    · rw [List.getElem?_eq_none (by rw [List.length_append, List.length_singleton]; omega), List.getElem?_eq_none hge]

theorem kids_snoc (q : Nat) : kids (rows ++ [(false, [])]) q = kids rows q := by
  unfold kids
  rw [getElem?_snoc]
  split
  · rename_i h
    rw [h, List.getElem?_eq_none (Nat.le_refl _)]
    rfl
  · rfl

theorem ends_snoc (q : Nat) : ends (rows ++ [(false, [])]) q = ends rows q := by
  unfold ends
  rw [getElem?_snoc]
  split
  · rename_i h
    rw [h, List.getElem?_eq_none (Nat.le_refl _)]
    rfl
  · rfl

theorem kids_past {q : Nat} (h : rows.length ≤ q) : kids rows q = [] := by
  rw [kids, List.getElem?_eq_none h]
  rfl

theorem tidy_iff : Explore.Tidy rows ↔ ∀ q, ((kids rows q).map Prod.fst).Nodup := by
  constructor
  · intro h q
    cases hq : rows[q]? with
    | none =>
      rw [kids, hq]
      exact List.nodup_nil
    | some row =>
      rw [LabelTrie.kids_eq hq]
      exact h row (List.mem_of_getElem? hq)
  · intro h row hrow
    obtain ⟨q, hq⟩ := List.mem_iff_getElem?.1 hrow
    rw [← LabelTrie.kids_eq hq]
    exact h q

end Rows

/-! ### Words that share what they start with -/

/-- The words to lay: from a main state to another, not empty, none the start of another from the same state. -/
structure Coded (main : Nat) (code : Nat → List α → Nat → Prop) : Prop where
  nonempty : ∀ {s w t}, code s w t → w ≠ []
  target : ∀ {s w t}, code s w t → t < main
  free : ∀ {s w v t t'}, code s w t → code s (w ++ v) t' → v = [] ∧ t = t'

/-- The words laid so far.  An inner state stands for the start of a word to be laid, the `origin` it is reached by. -/
structure Laid (main : Nat) (code laid : Nat → List α → Nat → Prop) (rows : Rows α) (origin : Nat → Nat × List α) :
    Prop where
  mains : main ≤ rows.length
  main_origin : ∀ s < main, origin s = (s, [])
  inner : ∀ q, main ≤ q → q < rows.length → (origin q).2 ≠ [] ∧ ∃ v t, v ≠ [] ∧ code (origin q).1 ((origin q).2 ++ v) t
  inj : ∀ q q', q < rows.length → q' < rows.length → origin q = origin q' → q = q'
  edges : ∀ q, q < rows.length → ∀ a t, (a, t) ∈ kids rows q ↔ t < main ∧ laid (origin q).1 ((origin q).2 ++ [a]) t ∨
    main ≤ t ∧ t < rows.length ∧ origin t = ((origin q).1, (origin q).2 ++ [a])
  tidy : ∀ q, ((kids rows q).map Prod.fst).Nodup
  closed : ∀ q, main ≤ q → ends rows q = false
  coded : ∀ {s w t}, laid s w t → code s w t
  whole : ∀ {s p v t}, laid s (p ++ v) t → p ≠ [] → v ≠ [] → ∃ q, main ≤ q ∧ q < rows.length ∧ origin q = (s, p)
  starts : ∀ {q s p v}, q < rows.length → origin q = (s, p ++ v) → p ≠ [] → ∃ q, main ≤ q ∧ q < rows.length ∧
  origin q = (s, p)

section Laid

variable {main : Nat} {code laid : Nat → List α → Nat → Prop} {rows : Rows α} {origin : Nat → Nat × List α}

/-- Rows without edges lay nothing. -/
theorem Laid.start (hrows : ∀ q, kids rows q = []) (hends : ∀ q, rows.length ≤ q → ends rows q = false) :
    Laid rows.length code (fun _ _ _ => False) rows fun q => (q, []) where
  mains := Nat.le_refl _
  main_origin := fun _ _ => rfl
  inner := fun q h h' => absurd h' (Nat.not_lt.2 h)
  inj := fun q q' _ _ h => congrArg Prod.fst h
  edges := by
    intro q _ a t
    rw [hrows]
    constructor
    · intro h
      cases h
    · rintro (⟨-, h⟩ | ⟨h, h', -⟩)
      · exact h.elim
      · omega
  tidy := by
    intro q
    rw [hrows]
    exact List.nodup_nil
  closed := hends
  coded := fun h => h.elim
  whole := fun h => h.elim
  starts := by
    intro q s p v _ h hp
    cases List.append_eq_nil_iff.1 (congrArg Prod.snd h).symm with
    | intro hnil _ => exact absurd hnil hp

theorem Laid.congr (h : Laid main code laid rows origin) {laid' : Nat → List α → Nat → Prop}
    (hsame : ∀ s w t, laid s w t ↔ laid' s w t) : Laid main code laid' rows origin := by
  have hlaid : laid = laid' := by
    funext s w t
    exact propext (hsame s w t)
  rwa [← hlaid]

variable [DecidableEq α]

theorem Laid.lookup_iff (h : Laid main code laid rows origin) {q t : Nat} {a : α} :
    rows[q]?.bind (·.2.lookup a) = some t ↔ (a, t) ∈ kids rows q := LabelTrie.lookup_iff (tidy_iff.2 h.tidy)

/-- **The last letter of a word makes one edge**, if there is none. -/
theorem Laid.last (h : Laid main code laid rows origin) {s current target : Nat} {done : List α} {a : α}
    (hlt : current < rows.length) (horigin : origin current = (s, done)) (hcode : code s (done ++ [a]) target)
    (htarget : target < main) (hnone : rows[current]?.bind (·.2.lookup a) = none) :
    Laid main code (fun s' w t => laid s' w t ∨ s' = s ∧ w = done ++ [a] ∧ t = target) (push rows current (a, target))
    origin where
  mains := by rw [length_push]; exact h.mains
  main_origin := h.main_origin
  inner := by rw [length_push]; exact h.inner
  inj := by rw [length_push]; exact h.inj
  edges := by
    rw [length_push]
    intro q hq b t
    rw [kids_push hlt]
    by_cases hqc : current = q
    · subst hqc
      rw [if_pos rfl, List.mem_append, h.edges current hq, List.mem_singleton, horigin]
      simp only [List.append_cancel_left_eq, List.cons.injEq, and_true, true_and]
      constructor
      · rintro ((⟨ht, hl⟩ | hin) | heq)
        · exact .inl ⟨ht, .inl hl⟩
        · exact .inr hin
        · cases heq
          exact .inl ⟨htarget, .inr ⟨rfl, rfl⟩⟩
      · rintro (⟨ht, hl | ⟨rfl, rfl⟩⟩ | hin)
        · exact .inl (.inl ⟨ht, hl⟩)
        · exact .inr rfl
        · exact .inl (.inr hin)
    · rw [if_neg hqc, h.edges q hq]
      have hother : ¬((origin q).1 = s ∧ (origin q).2 ++ [b] = done ++ [a] ∧ t = target) := by
        rintro ⟨hs, hw, -⟩
        have hp := (List.append_inj' hw rfl).1
        exact hqc (h.inj current q hlt hq (horigin.trans (Prod.ext hs.symm hp.symm)))
      rw [or_iff_left hother]
  tidy := by
    intro q
    rw [kids_push hlt]
    split
    · rename_i hqc
      subst hqc
      rw [List.map_append, List.map_singleton]
      refine (h.tidy current).append (List.nodup_singleton a) ?_
      rw [List.disjoint_singleton]
      intro hmem
      obtain ⟨⟨b, t⟩, hbt, rfl⟩ := List.mem_map.1 hmem
      rw [h.lookup_iff.2 hbt] at hnone
      cases hnone
    · exact h.tidy q
  closed := by
    intro q hq
    rw [ends_push]
    exact h.closed q hq
  coded := by
    rintro s' w t (hl | ⟨rfl, rfl, rfl⟩)
    · exact h.coded hl
    · exact hcode
  whole := by
    rw [length_push]
    rintro s' p v t (hl | ⟨rfl, hw, rfl⟩) hp hv
    · exact h.whole hl hp hv
    · rcases List.eq_nil_or_concat' v with rfl | ⟨v, b, rfl⟩
      · exact absurd rfl hv
      · rw [← List.append_assoc] at hw
        exact h.starts hlt (horigin.trans (Prod.ext rfl (List.append_inj' hw rfl).1.symm)) hp
  starts := by
    rw [length_push]
    exact h.starts

/-- No inner state stands for a start that has no edge yet. -/
theorem Laid.fresh (h : Laid main code laid rows origin) {s current : Nat} {done : List α} {a : α}
    (hlt : current < rows.length)
    (horigin : origin current = (s, done)) (hnone : rows[current]?.bind (·.2.lookup a) = none) :
    ¬∃ q, main ≤ q ∧ q < rows.length ∧ origin q = (s, done ++ [a]) := by
  rintro ⟨q, hmain, hq, hqo⟩
  have hedge := (h.edges current hlt a q).2 (.inr ⟨hmain, hq, by rw [hqo, horigin]⟩)
  rw [h.lookup_iff.2 hedge] at hnone
  cases hnone

/-- **A letter further up opens one inner state.** -/
theorem Laid.opened (h : Laid main code laid rows origin) {s current target : Nat} {done rest : List α} {a : α}
    (hlt : current < rows.length) (horigin : origin current = (s, done)) (hcode : code s (done ++ a :: rest) target)
    (hrest : rest ≠ []) (hnone : rows[current]?.bind (·.2.lookup a) = none) :
    Laid main code laid (push (rows ++ [(false, [])]) current (a, rows.length))
      (Function.update origin rows.length (s, done ++ [a])) := by
  have hfresh := h.fresh hlt horigin hnone
  have hlen : (push (rows ++ [(false, [])]) current (a, rows.length)).length = rows.length + 1 := by
    rw [length_push, List.length_append, List.length_singleton]
  have hlt' : current < (rows ++ [(false, [])]).length := by
    rw [List.length_append]
    omega
  have hnew : Function.update origin rows.length (s, done ++ [a]) rows.length = (s, done ++ [a]) :=
    Function.update_self _ _ _
  have hold : ∀ {q}, q < rows.length → Function.update origin rows.length (s, done ++ [a]) q = origin q := fun hq =>
    Function.update_of_ne (Nat.ne_of_lt hq) _ _
  have hcases : ∀ {q}, q < rows.length + 1 → q < rows.length ∨ q = rows.length :=
    fun hq => Nat.lt_succ_iff_lt_or_eq.1 hq
  have hmains := h.mains
  -- a state for the new start would be inner
  have hother : ∀ q, q < rows.length → origin q ≠ (s, done ++ [a]) := by
    intro q hq hqo
    rcases Nat.lt_or_ge q main with hm | hm
    · have := congrArg Prod.snd ((h.main_origin q hm).symm.trans hqo)
      simp at this
    · exact hfresh ⟨q, hm, hq, hqo⟩
  refine ⟨?_, ?_, ?_, ?_, ?_, ?_, ?_, h.coded, ?_, ?_⟩
  · rw [hlen]
    omega
  · intro q hq
    rw [hold (Nat.lt_of_lt_of_le hq hmains)]
    exact h.main_origin q hq
  · rw [hlen]
    intro q hm hq
    rcases hcases hq with hq | rfl
    · rw [hold hq]
      exact h.inner q hm hq
    · rw [hnew]
      refine ⟨by simp, rest, target, hrest, ?_⟩
      rw [List.append_assoc]
      exact hcode
  · rw [hlen]
    intro q q' hq hq' heq
    rcases hcases hq with hq | rfl <;> rcases hcases hq' with hq' | rfl
    · rw [hold hq, hold hq'] at heq
      exact h.inj q q' hq hq' heq
    · rw [hold hq, hnew] at heq
      exact absurd heq (hother q hq)
    · rw [hold hq', hnew] at heq
      exact absurd heq.symm (hother q' hq')
    · rfl
  · rw [hlen]
    intro q hq b t
    rw [kids_push hlt', kids_snoc]
    rcases hcases hq with hq | rfl
    · rw [hold hq]
      have hstep : (main ≤ t ∧ t < rows.length + 1 ∧ Function.update origin rows.length (s, done ++ [a]) t =
          ((origin q).1, (origin q).2 ++ [b])) ↔
          (main ≤ t ∧ t < rows.length ∧ origin t = ((origin q).1, (origin q).2 ++ [b])) ∨
          current = q ∧ (b, t) = (a, rows.length) := by
        constructor
        · rintro ⟨hm, ht, hto⟩
          rcases hcases ht with ht | rfl
          · rw [hold ht] at hto
            exact .inl ⟨hm, ht, hto⟩
          · rw [hnew, Prod.mk.injEq] at hto
            obtain ⟨hdone, hab⟩ := List.append_inj' hto.2 rfl
            refine .inr ⟨h.inj current q hlt hq (horigin.trans (Prod.ext hto.1 hdone)), ?_⟩
            rw [(List.singleton_inj.1 hab)]
        · rintro (⟨hm, ht, hto⟩ | ⟨rfl, heq⟩)
          · exact ⟨hm, Nat.lt_succ_of_lt ht, by rw [hold ht, hto]⟩
          · cases heq
            exact ⟨hmains, Nat.lt_succ_self _, by rw [hnew, horigin]⟩
      rw [hstep, ← or_assoc, ← h.edges q hq]
      split
      · rename_i hqc
        rw [List.mem_append, List.mem_singleton]
        simp only [hqc, true_and]
      · rename_i hqc
        rw [or_iff_left fun hc => hqc hc.1]
    · rw [if_neg (Nat.ne_of_lt hlt), kids_past (Nat.le_refl _), hnew]
      refine iff_of_false List.not_mem_nil ?_
      rintro (⟨-, hl⟩ | ⟨hm, ht, hto⟩)
      · exact hfresh (h.whole hl (by simp) (List.cons_ne_nil _ _))
      · rcases hcases ht with ht | rfl
        · rw [hold ht] at hto
          exact hfresh (h.starts ht hto (by simp))
        · have := congrArg (fun o => o.2.length) (hnew.symm.trans hto)
          simp at this
  · intro q
    rw [kids_push hlt', kids_snoc]
    split
    · rename_i hqc
      subst hqc
      rw [List.map_append, List.map_singleton]
      refine (h.tidy current).append (List.nodup_singleton a) ?_
      rw [List.disjoint_singleton]
      intro hmem
      obtain ⟨⟨b, t⟩, hbt, rfl⟩ := List.mem_map.1 hmem
      rw [h.lookup_iff.2 hbt] at hnone
      cases hnone
    · exact h.tidy q
  · intro q hq
    rw [ends_push, ends_snoc]
    exact h.closed q hq
  · rw [hlen]
    intro s' p v t hl hp hv
    obtain ⟨q, hm, hq, hqo⟩ := h.whole hl hp hv
    exact ⟨q, hm, Nat.lt_succ_of_lt hq, by rw [hold hq, hqo]⟩
  · rw [hlen]
    intro q s' p v hq hqo hp
    have hkeep : (∃ q, main ≤ q ∧ q < rows.length ∧ origin q = (s', p)) →
        ∃ q, main ≤ q ∧ q < rows.length + 1 ∧ Function.update origin rows.length (s, done ++ [a]) q = (s', p) := by
      rintro ⟨q, hm, hq, hqo⟩
      exact ⟨q, hm, Nat.lt_succ_of_lt hq, by rw [hold hq, hqo]⟩
    rcases hcases hq with hq | rfl
    · rw [hold hq] at hqo
      exact hkeep (h.starts hq hqo hp)
    · rw [hnew, Prod.mk.injEq] at hqo
      obtain ⟨rfl, hw⟩ := hqo
      rcases List.eq_nil_or_concat' v with rfl | ⟨v, b, rfl⟩
      · rw [List.append_nil] at hw
        exact ⟨rows.length, hmains, Nat.lt_succ_self _, by rw [hnew, hw]⟩
      · rw [← List.append_assoc] at hw
        exact hkeep (h.starts hlt (horigin.trans (Prod.ext rfl (List.append_inj' hw rfl).1)) hp)

/-- **A word is laid or there is no room**: it never meets another that leads elsewhere. -/
theorem Laid.addPath (hcoded : Coded main code) (cap : Nat) (full clash : ε) {s target : Nat} :
    ∀ (word : List α) {rows : Rows α} {origin : Nat → Nat × List α} {current : Nat} {done : List α},
      Laid main code laid rows origin → current < rows.length → origin current = (s, done) →
      code s (done ++ word) target → word ≠ [] →
      PathMerge.addPath cap full clash rows current target word = .error full ∨
      ∃ rows' origin', PathMerge.addPath cap full clash rows current target word = .ok rows' ∧
        Laid main code (fun s' w t => laid s' w t ∨ s' = s ∧ w = done ++ word ∧ t = target) rows' origin' ∧
        ∀ q, ends rows' q = ends rows q
  | [], _, _, _, _, _, _, _, _, hne => absurd rfl hne
  | a :: word, rows, origin, current, done, h, hlt, horigin, hcode, _ => by
    rw [List.append_cons] at hcode ⊢
    unfold PathMerge.addPath
    cases hlookup : rows[current]?.bind (·.2.lookup a) with
    | some existing =>
      have hedge := (h.edges current hlt a existing).1 (h.lookup_iff.1 hlookup)
      rw [horigin] at hedge
      rcases hedge with ⟨-, hl⟩ | ⟨hm, hex, hexo⟩
      · obtain ⟨rfl, rfl⟩ := hcoded.free (h.coded hl) hcode
        refine .inr ⟨rows, origin, by simp [PathMerge.addPath], h.congr fun s' w t => ?_, fun _ => rfl⟩
        refine (or_iff_left_of_imp ?_).symm
        rintro ⟨rfl, rfl, rfl⟩
        rwa [List.append_nil]
      · have hword : word ≠ [] := by
          rintro rfl
          obtain ⟨v, t, hv, hc⟩ := (h.inner existing hm hex).2
          rw [hexo] at hc
          rw [List.append_nil] at hcode
          exact hv (hcoded.free hcode hc).1
        simp only [hword, false_and, if_false]
        exact Laid.addPath hcoded cap full clash word h hex hexo hcode hword
    | none =>
      by_cases hword : word = []
      · subst hword
        rw [List.append_nil] at hcode ⊢
        simp only [if_true]
        exact .inr ⟨_, origin, rfl, h.last hlt horigin hcode (hcoded.target hcode) hlookup, fun q => ends_push _ _ _⟩
      · simp only [hword, if_false]
        split
        · exact .inl rfl
        · have hopened := h.opened hlt horigin (by rwa [List.append_assoc] at hcode) hword hlookup
          have hlen : rows.length < (push (rows ++ [(false, [])]) current (a, rows.length)).length := by
            rw [length_push, List.length_append]
            exact Nat.lt_succ_self _
          rcases Laid.addPath hcoded cap full clash word hopened hlen (Function.update_self _ _ _) hcode hword with
            hfull | ⟨rows', origin', hok, hlaid, hends⟩
          · exact .inl hfull
          · refine .inr ⟨rows', origin', hok, hlaid, fun q => ?_⟩
            rw [hends, ends_push, ends_snoc]

/-! ### What the rows read -/

/-- Words laid, one after another, from a main state to an accepting one. -/
inductive Strung (laid : Nat → List α → Nat → Prop) (accept : Nat → Bool) : Nat → List α → Prop where
  | nil {s : Nat} : accept s = true → Strung laid accept s []
  | cons {s t : Nat} {w v : List α} : laid s w t → Strung laid accept t v → Strung laid accept s (w ++ v)

/-- What is left to read at a state that stands for a start: nothing, or the rest of a word and what is strung to it. -/
def Rest (laid : Nat → List α → Nat → Prop) (accept : Nat → Bool) (origin : Nat → Nat × List α) (q : Nat) (w : List α) :
    Prop :=
  w = [] ∧ accept q = true ∨
  ∃ u t v, w = u ++ v ∧ u ≠ [] ∧ laid (origin q).1 ((origin q).2 ++ u) t ∧ Strung laid accept t v

omit [DecidableEq α] in
theorem Laid.rest_iff (hcoded : Coded main code) (h : Laid main code laid rows origin) {s : Nat} (hs : s < main)
    (w : List α) :
    Rest laid (ends rows) origin s w ↔ Strung laid (ends rows) s w := by
  unfold Rest
  rw [h.main_origin s hs]
  simp only [List.nil_append]
  constructor
  · rintro (⟨rfl, hend⟩ | ⟨u, t, v, rfl, -, hl, hv⟩)
    · exact .nil hend
    · exact .cons hl hv
  · intro hw
    cases hw with
    | nil hend => exact .inl ⟨rfl, hend⟩
    | cons hl hv => exact .inr ⟨_, _, _, rfl, hcoded.nonempty (h.coded hl), hl, hv⟩

theorem Laid.reads (hcoded : Coded main code) (h : Laid main code laid rows origin) : ∀ (w : List α) {q : Nat},
    q < rows.length → (Explore.accepts rows q w = true ↔ Rest laid (ends rows) origin q w)
  | [], q, hq => by
    constructor
    · exact fun hend => .inl ⟨rfl, hend⟩
    · rintro (⟨-, hend⟩ | ⟨u, t, v, hw, hu, -⟩)
      · exact hend
      · exact absurd (List.append_eq_nil_iff.1 hw.symm).1 hu
  | a :: w, q, hq => by
    rw [Explore.accepts]
    constructor
    · intro hacc
      split at hacc
      · rename_i t ht
        rcases (h.edges q hq a t).1 (h.lookup_iff.1 ht) with ⟨hm, hl⟩ | ⟨hm, hlt, hto⟩
        · have hv := (h.rest_iff hcoded hm w).1 ((h.reads hcoded w (Nat.lt_of_lt_of_le hm h.mains)).1 hacc)
          exact .inr ⟨[a], t, w, rfl, List.cons_ne_nil _ _, hl, hv⟩
        · rcases (h.reads hcoded w hlt).1 hacc with ⟨-, hend⟩ | ⟨u, t', v, rfl, -, hl, hv⟩
          · rw [h.closed t hm] at hend
            cases hend
          · rw [hto, List.append_assoc] at hl
            exact .inr ⟨a :: u, t', v, rfl, List.cons_ne_nil _ _, hl, hv⟩
      · cases hacc
    · rintro (⟨hw, -⟩ | ⟨u, t, v, hw, hu, hl, hv⟩)
      · cases hw
      · obtain ⟨a', u, rfl⟩ := List.exists_cons_of_ne_nil hu
        rw [List.cons_append, List.cons.injEq] at hw
        obtain ⟨rfl, rfl⟩ := hw
        by_cases hne : u = []
        · subst hne
          have ht : t < main := hcoded.target (h.coded hl)
          rw [h.lookup_iff.2 ((h.edges q hq a t).2 (.inl ⟨ht, hl⟩))]
          exact (h.reads hcoded _ (Nat.lt_of_lt_of_le ht h.mains)).2 ((h.rest_iff hcoded ht _).2 hv)
        · rw [List.append_cons] at hl
          obtain ⟨q', hm, hlt, hqo⟩ := h.whole hl (by simp) hne
          rw [h.lookup_iff.2 ((h.edges q hq a q').2 (.inr ⟨hm, hlt, hqo⟩))]
          refine (h.reads hcoded _ hlt).2 (.inr ⟨u, t, v, rfl, hne, ?_, hv⟩)
          rwa [hqo]

/-- **From a main state the rows read the words laid, one after another.** -/
theorem Laid.accepts (hcoded : Coded main code) (h : Laid main code laid rows origin) {s : Nat} (hs : s < main)
    (w : List α) :
    Explore.accepts rows s w = true ↔ Strung laid (ends rows) s w :=
  (h.reads hcoded w (Nat.lt_of_lt_of_le hs h.mains)).trans (h.rest_iff hcoded hs w)

/-! ### Laying many words -/

/-- `f` lays the words of `new`, or there is no room. -/
def Extends (main : Nat) (code : Nat → List α → Nat → Prop) (full : ε) (f : Rows α → Except ε (Rows α))
    (new : Nat → List α → Nat → Prop) : Prop :=
  ∀ (laid : Nat → List α → Nat → Prop) (rows : Rows α) (origin : Nat → Nat × List α), Laid main code laid rows origin →
    f rows = .error full ∨ ∃ rows' origin', f rows = .ok rows' ∧
      Laid main code (fun s w t => laid s w t ∨ new s w t) rows' origin' ∧ ∀ q, ends rows' q = ends rows q

variable {full : ε} {f g : Rows α → Except ε (Rows α)} {new new' : Nat → List α → Nat → Prop}

theorem Extends.path (hcoded : Coded main code) {cap : Nat} {clash : ε} {s target : Nat} {word : List α} (hs : s < main)
    (hcode : code s word target) :
    Extends main code full (fun rows => PathMerge.addPath cap full clash rows s target word)
      fun s' w t => s' = s ∧ w = word ∧ t = target := by
  intro laid rows origin h
  exact h.addPath hcoded cap full clash word (Nat.lt_of_lt_of_le hs h.mains) (h.main_origin s hs) hcode
    (hcoded.nonempty hcode)

omit [DecidableEq α] in
theorem Extends.none : Extends main code full (fun rows => .ok rows) fun _ _ _ => False := by
  intro laid rows origin h
  refine .inr ⟨rows, origin, rfl, h.congr fun s w t => ?_, fun _ => rfl⟩
  rw [or_false]

omit [DecidableEq α] in
theorem Extends.congr (h : Extends main code full f new) (hsame : ∀ s w t, new s w t ↔ new' s w t) :
    Extends main code full f new' := by
  have hnew : new = new' := by
    funext s w t
    exact propext (hsame s w t)
  rwa [← hnew]

omit [DecidableEq α] in
theorem Extends.bind (hf : Extends main code full f new) (hg : Extends main code full g new') :
    Extends main code full (fun rows => f rows >>= g) fun s w t => new s w t ∨ new' s w t := by
  intro laid rows origin h
  rcases hf laid rows origin h with hfull | ⟨rows₁, origin₁, hok, h₁, hends₁⟩
  · refine .inl ?_
    simp only [hfull]
    rfl
  · rcases hg _ _ _ h₁ with hfull | ⟨rows₂, origin₂, hok₂, h₂, hends₂⟩
    · refine .inl ?_
      simp only [hok]
      exact hfull
    · refine .inr ⟨rows₂, origin₂, ?_, h₂.congr fun s w t => or_assoc, fun q => (hends₂ q).trans (hends₁ q)⟩
      simp only [hok]
      exact hok₂

omit [DecidableEq α] in
theorem Extends.foldlM {ι : Type} {step : Rows α → ι → Except ε (Rows α)} {news : ι → Nat → List α → Nat → Prop} :
    ∀ {items : List ι}, (∀ i ∈ items, Extends main code full (step · i) (news i)) →
      Extends main code full (fun rows => items.foldlM step rows) fun s w t => ∃ i ∈ items, news i s w t
  | [], _ => Extends.none.congr fun s w t => by simp
  | i :: items, h => by
    have hrest := Extends.foldlM fun j hj => h j (List.mem_cons_of_mem _ hj)
    refine ((h i List.mem_cons_self).bind hrest).congr fun s w t => ?_
    rw [List.exists_mem_cons_iff]

end Laid

end PathMerge
