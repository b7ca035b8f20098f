import MaskForge.Lib.Explore
import MaskForge.Lib.Liveness
/-!
# Trim — rows without the states that lead to no accepting one

The live rows are those from which some word is accepted; they are found backwards from the accepting ones.  Renumbered
among themselves, without the edges that leave them, they accept from each what they did (`accepts_trim`).
-/
namespace Explore

variable {α : Type}

/-- The rows with an edge to one of them, one entry for each edge. -/
def reverseRow (rows : List (Bool × List (α × Nat))) (t : Nat) : List Nat :=
  rows.zipIdx.flatMap fun row => (row.1.2.filter fun e => decide (e.2 = t)).map fun _ => row.2

def liveRows (rows : List (Bool × List (α × Nat))) : List Bool := Liveness.sweep (reverseRow rows) (rows.map Prod.fst)

/-- The live rows are numbered in their order. -/
def finalIds : Nat → List Bool → List (Option Nat)
  | _, [] => []
  | next, true :: live => some next :: finalIds (next + 1) live
  | next, false :: live => none :: finalIds next live

def finalRow (ids : List (Option Nat)) (row : List (α × Nat)) : List (α × Nat) :=
  row.filterMap fun e => ids[e.2]?.join.map fun t => (e.1, t)

def trim (rows : List (Bool × List (α × Nat))) (live : List Bool) : List (Bool × List (α × Nat)) :=
  (rows.zip live).filterMap fun row => if row.2 then some (row.1.1, finalRow (finalIds 0 live) row.1.2) else none

/-! ### Numbers -/

theorem getElem?_finalIds : ∀ (live : List Bool) (next i : Nat), (finalIds next live)[i]? =
    live[i]?.map fun l => if l then some (next + (live.take i).count true) else none
  | [], _, _ => by simp [finalIds]
  | true :: live, next, 0 => by simp [finalIds]
  | false :: live, next, 0 => by simp [finalIds]
  | true :: live, next, i + 1 => by
    rw [finalIds, List.getElem?_cons_succ, getElem?_finalIds live (next + 1) i, List.getElem?_cons_succ,
      List.take_succ_cons, List.count_cons_self, Nat.add_right_comm]
    rfl
  | false :: live, next, i + 1 => by
    rw [finalIds, List.getElem?_cons_succ, getElem?_finalIds live next i, List.getElem?_cons_succ, List.take_succ_cons,
      List.count_cons_of_ne (by decide)]

theorem count_take_lt :
    ∀ {live : List Bool} {i : Nat}, live[i]? = some true → (live.take i).count true < live.count true
  | [], _, h => by cases h
  | l :: live, 0, h => by
    cases h
    rw [List.take_zero, List.count_nil, List.count_cons_self]
    exact Nat.succ_pos _
  | l :: live, i + 1, h => by
    have ih := count_take_lt (show live[i]? = some true from h)
    rw [List.take_succ_cons, List.count_cons, List.count_cons]
    omega

/-- **A number is a live row's**, from `next` on. -/
theorem finalIds_some {next i m : Nat} {live : List Bool} (h : (finalIds next live)[i]?.join = some m) :
    live[i]? = some true ∧ m = next + (live.take i).count true ∧ m < next + live.count true := by
  rw [getElem?_finalIds] at h
  cases hi : live[i]? with
  | none =>
    rw [hi] at h
    cases h
  | some l =>
    rw [hi] at h
    cases l with
    | false => cases h
    | true =>
      cases h
      exact ⟨rfl, rfl, Nat.add_lt_add_left (count_take_lt hi) next⟩

theorem finalIds_live {next i : Nat} {live : List Bool} (h : live[i]? = some true) :
    (finalIds next live)[i]?.join = some (next + (live.take i).count true) := by
  rw [getElem?_finalIds, h]
  rfl

theorem finalIds_not_live {next i : Nat} {live : List Bool} (h : live[i]? ≠ some true) :
    (finalIds next live)[i]?.join = none := by
  cases hj : (finalIds next live)[i]?.join with
  | none => rfl
  | some m => exact absurd (finalIds_some hj).1 h

/-- Every number in range is some live row's. -/
theorem finalIds_onto :
    ∀ {live : List Bool} (next : Nat) {m : Nat}, m < live.count true → ∃ i : Nat, (finalIds next live)[i]?.join =
    some (next + m)
  | [], next, m, h => absurd h (Nat.not_lt_zero _)
  | true :: live, next, 0, _ => ⟨0, rfl⟩
  | true :: live, next, m + 1, h => by
    rw [List.count_cons_self] at h
    obtain ⟨i, hi⟩ := finalIds_onto (next + 1) (Nat.lt_of_succ_lt_succ h)
    refine ⟨i + 1, ?_⟩
    rw [finalIds, List.getElem?_cons_succ, hi]
    congr 1
    omega
  | false :: live, next, m, h => by
    rw [List.count_cons_of_ne (by decide)] at h
    obtain ⟨i, hi⟩ := finalIds_onto next h
    exact ⟨i + 1, hi⟩

/-- A live row stands at its number. -/
theorem getElem?_kept {β γ : Type} (f : β → γ) : ∀ {xs : List β} {live : List Bool} {i : Nat} {x : β}, xs[i]? = some x →
    live[i]? = some true →
    ((xs.zip live).filterMap fun p => if p.2 then some (f p.1) else none)[(live.take i).count true]? = some (f x)
  | [], _, _, _, h, _ => by simp at h
  | _ :: _, [], _, _, _, h => by simp at h
  | y :: xs, l :: live, 0, x, hx, hl => by
    cases hx
    cases hl
    simp
  | y :: xs, true :: live, i + 1, x, hx, hl => by
    have hx' : xs[i]? = some x := hx
    have ih := getElem?_kept f hx' hl
    rw [List.zip_cons_cons, List.filterMap_cons, List.take_succ_cons, List.count_cons_self]
    exact ih
  | y :: xs, false :: live, i + 1, x, hx, hl => by
    have hx' : xs[i]? = some x := hx
    have ih := getElem?_kept f hx' hl
    rw [List.zip_cons_cons, List.filterMap_cons, List.take_succ_cons, List.count_cons_of_ne (by decide)]
    exact ih

theorem length_kept {β γ : Type} (f : β → γ) : ∀ {xs : List β} {live : List Bool}, live.length = xs.length →
    ((xs.zip live).filterMap fun p => if p.2 then some (f p.1) else none).length = live.count true
  | [], [], _ => rfl
  | x :: xs, true :: live, h => by
    rw [List.zip_cons_cons, List.filterMap_cons, List.count_cons_self, ← length_kept f (Nat.succ.inj h)]
    rfl
  | x :: xs, false :: live, h => by
    rw [List.zip_cons_cons, List.filterMap_cons, List.count_cons_of_ne (by decide), ← length_kept f (Nat.succ.inj h)]
    rfl

/-- No row has two edges by one letter. -/
def Tidy (rows : List (Bool × List (α × Nat))) : Prop := ∀ row ∈ rows, (row.2.map Prod.fst).Nodup

section
variable {rows : List (Bool × List (α × Nat))}

theorem mem_reverseRow {t v : Nat} : v ∈ reverseRow rows t ↔ ∃ row a, rows[v]? = some row ∧ (a, t) ∈ row.2 := by
  unfold reverseRow
  simp only [List.mem_flatMap, List.mem_map, List.mem_filter, decide_eq_true_eq, Prod.exists]
  constructor
  · rintro ⟨accepting, row, i, hmem, ⟨a, t', ⟨ha, rfl⟩, rfl⟩⟩
    exact ⟨accepting, row, a, by simpa [List.mem_zipIdx_iff_getElem?] using hmem, ha⟩
  · rintro ⟨accepting, row, a, hrow, ha⟩
    exact ⟨accepting, row, v, by simpa [List.mem_zipIdx_iff_getElem?] using hrow, a, t, ⟨ha, rfl⟩, rfl⟩

theorem getElem?_trim {live : List Bool} {i : Nat} {row : Bool × List (α × Nat)} (hrow : rows[i]? = some row)
    (hi : live[i]? = some true) :
    (trim rows live)[(live.take i).count true]? = some (row.1, finalRow (finalIds 0 live) row.2) :=
  getElem?_kept (fun row : Bool × List (α × Nat) => (row.1, finalRow (finalIds 0 live) row.2)) hrow hi

theorem trim_eq_nil_iff {live : List Bool} (hlen : live.length = rows.length) :
    trim rows live = [] ↔ ∀ i : Nat, live[i]? ≠ some true := by
  constructor
  · intro hnil i hi
    have hlt := (List.getElem?_eq_some_iff.1 hi).1
    rw [hlen] at hlt
    have hget := getElem?_trim (List.getElem?_eq_getElem hlt) hi
    rw [hnil] at hget
    cases hget
  · intro hnone
    rw [trim, List.filterMap_eq_nil_iff]
    intro p hp
    obtain ⟨i, hi⟩ := List.mem_iff_getElem?.1 hp
    rw [List.getElem?_zip_eq_some] at hi
    rw [if_neg]
    intro htrue
    exact hnone i (htrue ▸ hi.2)

theorem mem_finalRow {ids : List (Option Nat)} {row : List (α × Nat)} {a : α} {m : Nat} :
    (a, m) ∈ finalRow ids row ↔ ∃ t, (a, t) ∈ row ∧ ids[t]?.join = some m := by
  rw [finalRow, List.mem_filterMap]
  constructor
  · rintro ⟨⟨a', t⟩, hmem, h⟩
    obtain ⟨m', hm', heq⟩ := Option.map_eq_some_iff.1 h
    cases heq
    exact ⟨t, hmem, hm'⟩
  · rintro ⟨t, hmem, ht⟩
    exact ⟨(a, t), hmem, by rw [ht]; rfl⟩

theorem finalRow_letters (ids : List (Option Nat)) :
    ∀ row : List (α × Nat), ((finalRow ids row).map Prod.fst).Sublist (row.map Prod.fst)
  | [] => List.Sublist.refl _
  | e :: row => by
    have ih := finalRow_letters ids row
    rw [finalRow, List.filterMap_cons]
    cases ids[e.2]?.join with
    | none => exact ih.cons e.1
    | some t => exact ih.cons_cons e.1

variable [DecidableEq α]

theorem lookup_mem {row : List (α × Nat)} {a : α} {t : Nat} (hnodup : (row.map Prod.fst).Nodup) (h : (a, t) ∈ row) :
    row.lookup a = some t := by
  induction row with
  | nil => cases h
  | cons e row ih =>
    rw [List.map_cons, List.nodup_cons] at hnodup
    rcases List.mem_cons.1 h with rfl | h
    · exact List.lookup_cons_self
    · have hne : a ≠ e.1 := fun heq => hnodup.1 (heq ▸ List.mem_map_of_mem h)
      rw [List.lookup_cons, beq_eq_false_iff_ne.2 hne]
      exact ih hnodup.2 h

/-- **The live rows are those some word is accepted from.** -/
theorem liveRows_spec (h : Tidy rows) : (liveRows rows).length = rows.length ∧
    ∀ v : Nat, (liveRows rows)[v]? = some true ↔ ∃ w, accepts rows v w = true := by
  have hin : ∀ t, t < (rows.map Prod.fst).length → ∀ p ∈ reverseRow rows t, p < (rows.map Prod.fst).length := by
    intro t _ p hp
    obtain ⟨row, a, hrow, _⟩ := mem_reverseRow.1 hp
    rw [List.length_map]
    exact (List.getElem?_eq_some_iff.1 hrow).1
  obtain ⟨hlen, hlive⟩ := Liveness.sweep_spec hin
  rw [List.length_map] at hlen
  refine ⟨hlen, fun v => (hlive v).trans ⟨?_, ?_⟩⟩
  · rintro ⟨t, ht, hleads⟩
    induction hleads using Relation.ReflTransGen.head_induction_on with
    | refl =>
      rw [List.getElem?_map] at ht
      exact ⟨[], by rw [accepts, ht]; rfl⟩
    | head hp _ ih =>
      obtain ⟨w, hw⟩ := ih
      obtain ⟨row, a, hrow, ha⟩ := mem_reverseRow.1 hp
      refine ⟨a :: w, ?_⟩
      rw [accepts, hrow, Option.bind_some, lookup_mem (h row (List.mem_of_getElem? hrow)) ha]
      exact hw
  · rintro ⟨w, hw⟩
    induction w generalizing v with
    | nil =>
      rw [accepts, Option.getD_eq_iff] at hw
      refine ⟨v, ?_, .refl⟩
      rcases hw with hw | ⟨_, hw⟩
      · rw [List.getElem?_map, hw]
      · cases hw
    | cons a w ih =>
      rw [accepts] at hw
      split at hw
      · rename_i t ht
        obtain ⟨u, hu, hleads⟩ := ih t hw
        obtain ⟨row, hrow, hlookup⟩ := Option.bind_eq_some_iff.1 ht
        obtain ⟨l, r, hsplit, _⟩ := List.lookup_eq_some_iff.1 hlookup
        refine ⟨u, hu, .head (mem_reverseRow.2 ⟨row, a, hrow, ?_⟩) hleads⟩
        rw [hsplit]
        exact List.mem_append_right _ List.mem_cons_self
      · cases hw

/-! ### Trimming -/

theorem lookup_finalRow {ids : List (Option Nat)} {row : List (α × Nat)} {a : α} (hnodup : (row.map Prod.fst).Nodup) :
    (finalRow ids row).lookup a = (row.lookup a).bind fun t => ids[t]?.join := by
  induction row with
  | nil => rfl
  | cons e row ih =>
    rw [List.map_cons, List.nodup_cons] at hnodup
    have hskip : e.1 ∉ (finalRow ids row).map Prod.fst := fun hmem => hnodup.1 ((finalRow_letters ids row).subset hmem)
    rw [List.lookup_cons]
    by_cases heq : a = e.1
    · rw [beq_iff_eq.2 heq]
      cases hid : ids[e.2]?.join with
      | none =>
        rw [finalRow, List.filterMap_cons_none (by rw [hid]; rfl)]
        show (finalRow ids row).lookup a = ids[e.2]?.join
        rw [hid, List.lookup_eq_none_iff]
        intro p hp
        rw [bne_iff_ne, heq]
        exact fun h => hskip (List.mem_map.2 ⟨p, hp, h.symm⟩)
      | some t =>
        rw [finalRow, List.filterMap_cons, hid, heq]
        show ((e.1, t) :: _).lookup e.1 = _
        rw [List.lookup_cons_self]
        exact hid.symm
    · rw [beq_eq_false_iff_ne.2 heq, ← ih hnodup.2]
      cases hid : ids[e.2]?.join with
      | none => rw [finalRow, List.filterMap_cons_none (by rw [hid]; rfl)]; rfl
      | some t =>
        rw [finalRow, List.filterMap_cons, hid]
        show ((e.1, t) :: _).lookup a = _
        rw [List.lookup_cons, beq_eq_false_iff_ne.2 heq]
        rfl

/-- **Trimming keeps what is accepted from a live row.** -/
theorem accepts_trim (h : Tidy rows) (w : List α) : ∀ {i : Nat}, (liveRows rows)[i]? = some true →
    accepts (trim rows (liveRows rows)) (((liveRows rows).take i).count true) w = accepts rows i w := by
  obtain ⟨hlen, hlive⟩ := liveRows_spec h
  have hrow : ∀ {i : Nat}, (liveRows rows)[i]? = some true → ∃ row, rows[i]? = some row := by
    intro i hi
    have hlt := (List.getElem?_eq_some_iff.1 hi).1
    rw [hlen] at hlt
    exact ⟨_, List.getElem?_eq_getElem hlt⟩
  induction w with
  | nil =>
    intro i hi
    obtain ⟨row, hget⟩ := hrow hi
    rw [accepts, accepts, getElem?_trim hget hi, hget]
    rfl
  | cons a w ih =>
    intro i hi
    obtain ⟨row, hget⟩ := hrow hi
    rw [accepts, accepts, getElem?_trim hget hi, hget, Option.bind_some, Option.bind_some,
      lookup_finalRow (h row (List.mem_of_getElem? hget))]
    cases hlookup : row.2.lookup a with
    | none => rfl
    | some t =>
      rw [Option.bind_some]
      by_cases ht : (liveRows rows)[t]? = some true
      · rw [finalIds_live ht, Nat.zero_add]
        exact ih ht
      · have hnone : accepts rows t w = false := by
          rw [← Bool.not_eq_true]
          exact fun hw => ht ((hlive t).2 ⟨w, hw⟩)
        rw [finalIds_not_live ht]
        exact hnone.symm

end

/-! ### Explored rows -/

section
variable {K ε : Type} [DecidableEq K] {m : Machine K α ε}

theorem intern_rows {k : K} {s : State K α} {r : Nat × State K α} (h : intern m k s = .ok r) : r.2.rows = s.rows := by
  unfold intern at h
  split at h
  · cases h
    rfl
  · change (m.room s.keys.length >>= fun _ => _) = _ at h
    cases hroom : m.room s.keys.length with
    | error e =>
      rw [hroom] at h
      cases h
    | ok u =>
      rw [hroom] at h
      cases h
      rfl

theorem expand_letters {k : K} :
    ∀ {as : List α} {row row' : List (α × Nat)} {s s' : State K α}, expand m k as row s = .ok (row', s') →
    s'.rows = s.rows ∧ ∃ l, l.Sublist as ∧ row'.map Prod.fst = row.map Prod.fst ++ l
  | [], row, row', s, s', h => by
    cases h
    exact ⟨rfl, [], List.Sublist.refl _, (List.append_nil _).symm⟩
  | a :: as, row, row', s, s', h => by
    rw [expand] at h
    cases hnext : m.next k a with
    | error e =>
      rw [hnext] at h
      cases h
    | ok target =>
      rw [hnext] at h
      cases target with
      | none =>
        obtain ⟨hrows, l, hl, hmap⟩ := expand_letters (show expand m k as row s = .ok (row', s') from h)
        exact ⟨hrows, l, hl.cons a, hmap⟩
      | some k' =>
        change (intern m k' s >>= fun r => _) = _ at h
        cases hintern : intern m k' s with
        | error e =>
          rw [hintern] at h
          cases h
        | ok r =>
          rw [hintern] at h
          change (m.edge r.2.keys.length (r.2.edges + 1) >>= fun _ => _) = _ at h
          cases hedge : m.edge r.2.keys.length (r.2.edges + 1) with
          | error e =>
            rw [hedge] at h
            cases h
          | ok u =>
            rw [hedge] at h
            obtain ⟨hrows, l, hl, hmap⟩ := expand_letters
              (show expand m k as (row ++ [(a, r.1)]) { r.2 with edges := r.2.edges + 1 } = .ok (row', s') from h)
            refine ⟨hrows.trans (intern_rows hintern), a :: l, hl.cons_cons a, ?_⟩
            rw [hmap, List.map_append, List.append_assoc]
            rfl

theorem run_letters {letters : List α} : ∀ {f : Nat} {s s' : State K α}, run m letters f s = .ok s' →
    (∀ row ∈ s.rows, (row.2.map Prod.fst).Sublist letters) → ∀ row ∈ s'.rows, (row.2.map Prod.fst).Sublist letters
  | 0, s, s', h, hs => by
    cases h
    exact hs
  | f + 1, s, s', h, hs => by
    rw [run] at h
    split at h
    · cases h
      exact hs
    · rename_i id rest hq
      split at h
      · cases h
      · rename_i k hk
        change (expand m k letters [] { s with queue := rest } >>= fun r => _) = _ at h
        cases hexpand : expand m k letters [] { s with queue := rest } with
        | error e =>
          rw [hexpand] at h
          cases h
        | ok r =>
          obtain ⟨row, s₁⟩ := r
          rw [hexpand] at h
          change (m.rowEnd s₁.edges >>= fun _ => _) = _ at h
          obtain ⟨hrows, l, hl, hmap⟩ := expand_letters hexpand
          cases hend : m.rowEnd s₁.edges with
          | error e =>
            rw [hend] at h
            cases h
          | ok u =>
            rw [hend] at h
            refine run_letters h fun row' hrow' => ?_
            rcases List.mem_append.1 hrow' with hmem | hmem
            · rw [hrows] at hmem
              exact hs row' hmem
            · rw [List.mem_singleton.1 hmem]
              dsimp only
              rw [hmap]
              exact hl

/-- A row's letters come in the order of all letters. -/
theorem explore_letters {letters : List α} {start : K} {s : State K α} {f id : Nat}
    (h : explore m letters f start = .ok (id, s)) :
    ∀ row ∈ s.rows, (row.2.map Prod.fst).Sublist letters := by
  unfold explore at h
  cases hintern : intern m start ⟨[], [], [], 0⟩ with
  | error e =>
    rw [hintern] at h
    cases h
  | ok r =>
    rw [hintern] at h
    change (run m letters f r.2 >>= fun s => Except.ok (r.1, s)) = _ at h
    cases hrun : run m letters f r.2 with
    | error e =>
      rw [hrun] at h
      cases h
    | ok s' =>
      rw [hrun] at h
      cases h
      refine run_letters hrun fun row hrow => ?_
      rw [intern_rows hintern] at hrow
      cases hrow

theorem explore_tidy {letters : List α} {start : K} {s : State K α} {f id : Nat} (hletters : letters.Nodup)
    (h : explore m letters f start = .ok (id, s)) : Tidy s.rows :=
  fun row hrow => (explore_letters h row hrow).nodup hletters

/-- What rows accept is spelled by their letters. -/
theorem accepts_letters [DecidableEq α] {rows : List (Bool × List (α × Nat))} {letters : List α}
    (h : ∀ row ∈ rows, (row.2.map Prod.fst).Sublist letters) :
    ∀ {w : List α} {i : Nat}, accepts rows i w = true → ∀ a ∈ w, a ∈ letters
  | [], _, _ => fun _ h => absurd h List.not_mem_nil
  | a :: w, i, hw => by
    rw [accepts] at hw
    split at hw
    · rename_i t ht
      obtain ⟨row, hrow, hlookup⟩ := Option.bind_eq_some_iff.1 ht
      obtain ⟨l, r, hsplit, _⟩ := List.lookup_eq_some_iff.1 hlookup
      intro x hx
      rcases List.mem_cons.1 hx with rfl | hx
      · refine (h row (List.mem_of_getElem? hrow)).subset (List.mem_map.2 ⟨(x, t), ?_, rfl⟩)
        rw [hsplit]
        exact List.mem_append_right _ List.mem_cons_self
      · exact accepts_letters h hw x hx
    · cases hw

end

/-! ### Where edges lead -/

section
variable {rows : List (Bool × List (α × Nat))}

/-- **Every edge of an exploration leads to a row.** -/
theorem Inv.targets {K ε : Type} [DecidableEq α] {m : Machine K α ε} {letters : List α} {start : K} {s : State K α}
    (hs : Inv m letters start s) (hall : s.rows.length = s.keys.length)
    (hletters : letters.Nodup) (hrows : ∀ row ∈ s.rows, (row.2.map Prod.fst).Sublist letters) :
    ∀ row ∈ s.rows, ∀ e ∈ row.2, e.2 < s.rows.length := by
  intro row hrow e he
  obtain ⟨i, hi⟩ := List.mem_iff_getElem?.1 hrow
  obtain ⟨k, -, -, hof⟩ := hs.rowsOf i row hi
  have hlookup : row.2.lookup e.1 = some e.2 := lookup_mem ((hrows row hrow).nodup hletters) he
  have hletter : e.1 ∈ letters := (hrows row hrow).subset (List.mem_map_of_mem he)
  rcases hof e.1 hletter with ⟨-, hnone⟩ | ⟨k', id, -, hsome, hid⟩
  · rw [hlookup] at hnone
    cases hnone
  · rw [hlookup] at hsome
    cases hsome
    rw [hall]
    exact (List.getElem?_eq_some_iff.1 hid).1

theorem length_trim {live : List Bool} (hlen : live.length = rows.length) : (trim rows live).length = live.count true :=
  length_kept (fun row : Bool × List (α × Nat) => (row.1, finalRow (finalIds 0 live) row.2)) hlen

theorem mem_trim {live : List Bool} {row : Bool × List (α × Nat)} (h : row ∈ trim rows live) :
    ∃ row' ∈ rows, row = (row'.1, finalRow (finalIds 0 live) row'.2) := by
  obtain ⟨p, hp, h⟩ := List.mem_filterMap.1 h
  split at h
  · cases h
    exact ⟨p.1, (List.of_mem_zip hp).1, rfl⟩
  · cases h

/-- Every edge that is kept leads to a row that is. -/
theorem trim_targets {live : List Bool} (hlen : live.length = rows.length) :
    ∀ row ∈ trim rows live, ∀ e ∈ row.2, e.2 < (trim rows live).length := by
  intro row hrow e he
  obtain ⟨row', -, rfl⟩ := mem_trim hrow
  obtain ⟨t, -, ht⟩ := mem_finalRow.1 (show (e.1, e.2) ∈ _ from he)
  rw [length_trim hlen, ← Nat.zero_add (live.count true)]
  exact (finalIds_some ht).2.2

theorem trim_tidy {live : List Bool} (h : Tidy rows) : Tidy (trim rows live) := by
  intro row hrow
  obtain ⟨row', hrow', rfl⟩ := mem_trim hrow
  exact (finalRow_letters _ row'.2).nodup (h row' hrow')

end

end Explore
