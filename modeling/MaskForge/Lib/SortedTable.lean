import Mathlib
/-!
# SortedTable — the one sorted table of a listing

A listing is a list of keys, each with some values; a key may come more than once, and a value too.  Its table has
every key once and every value of a key once, both in strictly ascending order.  There is one such table
(`Tabulates.unique`), so any two ways of making it agree; `Tabulates.cons` is how a sorted listing is worked off, one
run of equal keys at a time.
-/
namespace SortedTable

variable {κ ι : Type}

/-- `k` has a row, with values or without. -/
def HasKey (rows : List (κ × List ι)) (k : κ) : Prop := ∃ r ∈ rows, r.1 = k

/-- `v` is listed under `k`. -/
def Listed (rows : List (κ × List ι)) (k : κ) (v : ι) : Prop := ∃ r ∈ rows, r.1 = k ∧ v ∈ r.2

/-- `table` is the sorted table of the listing `rows`. -/
structure Tabulates [LT κ] [LT ι] (table rows : List (κ × List ι)) : Prop where
  sorted : table.Pairwise (fun a b => a.1 < b.1)
  ascending : ∀ r ∈ table, r.2.Pairwise (· < ·)
  keys : ∀ k, HasKey table k ↔ HasKey rows k
  lists : ∀ k v, Listed table k v ↔ Listed rows k v

theorem hasKey_append {rows rows' : List (κ × List ι)} {k : κ} :
    HasKey (rows ++ rows') k ↔ HasKey rows k ∨ HasKey rows' k := by
  unfold HasKey
  simp only [List.mem_append, or_and_right, exists_or]

theorem listed_append {rows rows' : List (κ × List ι)} {k : κ} {v : ι} :
    Listed (rows ++ rows') k v ↔ Listed rows k v ∨ Listed rows' k v := by
  unfold Listed
  simp only [List.mem_append, or_and_right, exists_or]

theorem hasKey_perm {rows rows' : List (κ × List ι)} (h : rows.Perm rows') (k : κ) :
    HasKey rows k ↔ HasKey rows' k := by
  unfold HasKey
  simp only [h.mem_iff]

theorem listed_perm {rows rows' : List (κ × List ι)} (h : rows.Perm rows') (k : κ) (v : ι) :
    Listed rows k v ↔ Listed rows' k v := by
  unfold Listed
  simp only [h.mem_iff]

/-- A strictly ascending list is known by its members. -/
theorem eq_of_ascending {α : Type} {lt : α → α → Prop} (hasymm : ∀ a b, lt a b → ¬lt b a) {l l' : List α}
    (h : l.Pairwise lt) (h' : l'.Pairwise lt) (hmem : ∀ x, x ∈ l ↔ x ∈ l') : l = l' := by
  have hnodup : ∀ {m : List α}, m.Pairwise lt → m.Nodup := by
    intro m hm
    refine hm.imp ?_
    rintro a b hab rfl
    exact hasymm a a hab hab
  have hperm : l.Perm l' := (List.perm_ext_iff_of_nodup (hnodup h) (hnodup h')).2 hmem
  exact hperm.eq_of_pairwise (fun a b _ _ hab hba => absurd hba (hasymm a b hab)) h h'

section Order

variable [LT κ] [Std.Asymm (α := κ) (· < ·)]

/-- A key of the table has one row. -/
theorem listed_row {table : List (κ × List ι)} (h : table.Pairwise (fun a b => a.1 < b.1)) {r : κ × List ι}
    (hr : r ∈ table) (v : ι) : Listed table r.1 v ↔ v ∈ r.2 := by
  constructor
  · rintro ⟨r', hr', hkey, hv⟩
    have hnodup : (table.map Prod.fst).Nodup := by
      refine (List.pairwise_map.2 h).imp ?_
      rintro a b hab rfl
      exact Std.Asymm.asymm a a hab hab
    rwa [List.inj_on_of_nodup_map hnodup hr' hr hkey] at hv
  · exact fun hv => ⟨r, hr, rfl, hv⟩

variable [LT ι] [Std.Asymm (α := ι) (· < ·)]

theorem Tabulates.mem_of_same {table table' rows rows' : List (κ × List ι)} (h : Tabulates table rows)
    (h' : Tabulates table' rows') (hkeys : ∀ k, HasKey rows k ↔ HasKey rows' k)
    (hlists : ∀ k v, Listed rows k v ↔ Listed rows' k v) {r : κ × List ι} (hr : r ∈ table) : r ∈ table' := by
  obtain ⟨r', hr', hkey⟩ := (h'.keys r.1).2 ((hkeys r.1).1 ((h.keys r.1).1 ⟨r, hr, rfl⟩))
  have hvalues : r'.2 = r.2 := by
    refine eq_of_ascending Std.Asymm.asymm (h'.ascending r' hr') (h.ascending r hr) fun v => ?_
    rw [← listed_row h'.sorted hr' v, ← listed_row h.sorted hr v, hkey, h'.lists, h.lists, hlists]
  rwa [← Prod.ext hkey hvalues]

/-- **A listing has one table**, whatever way it is made and however the listing is spread over its rows. -/
theorem Tabulates.unique {table table' rows rows' : List (κ × List ι)} (h : Tabulates table rows)
    (h' : Tabulates table' rows') (hkeys : ∀ k, HasKey rows k ↔ HasKey rows' k)
    (hlists : ∀ k v, Listed rows k v ↔ Listed rows' k v) : table = table' := by
  refine eq_of_ascending (fun a b hab => Std.Asymm.asymm a.1 b.1 hab) h.sorted h'.sorted fun r => ⟨?_, ?_⟩
  · exact h.mem_of_same h' hkeys hlists
  · exact h'.mem_of_same h (fun k => (hkeys k).symm) (fun k v => (hlists k v).symm)

end Order

/-! ### Working off a sorted listing -/

theorem tabulates_nil [LT κ] [LT ι] : Tabulates ([] : List (κ × List ι)) [] where
  sorted := List.Pairwise.nil
  ascending := fun _ hr => absurd hr List.not_mem_nil
  keys := fun _ => Iff.rfl
  lists := fun _ _ => Iff.rfl

/-- **One run of rows with the least key becomes one row**. -/
theorem Tabulates.cons [LT κ] [LT ι] {k : κ} {values : List ι} {run rest table : List (κ × List ι)}
    (h : Tabulates table rest)
    (hrun : ∀ r ∈ run, r.1 = k) (hne : run ≠ []) (hrest : ∀ r ∈ rest, k < r.1) (hasc : values.Pairwise (· < ·))
    (hvalues : ∀ v, v ∈ values ↔ ∃ r ∈ run, v ∈ r.2) : Tabulates ((k, values) :: table) (run ++ rest) where
  sorted := by
    refine List.pairwise_cons.2 ⟨fun r hr => ?_, h.sorted⟩
    obtain ⟨r', hr', hkey⟩ := (h.keys r.1).1 ⟨r, hr, rfl⟩
    rw [← hkey]
    exact hrest r' hr'
  ascending := by
    intro r hr
    rcases List.mem_cons.1 hr with rfl | hr
    · exact hasc
    · exact h.ascending r hr
  keys := by
    intro j
    have hhas : HasKey run j ↔ k = j := by
      constructor
      · rintro ⟨r, hr, rfl⟩
        exact (hrun r hr).symm
      · rintro rfl
        obtain ⟨r, hr⟩ := List.exists_mem_of_ne_nil run hne
        exact ⟨r, hr, hrun r hr⟩
    rw [hasKey_append, hhas, ← h.keys]
    unfold HasKey
    simp only [List.mem_cons, exists_eq_or_imp]
  lists := by
    intro j v
    have hlists : Listed run j v ↔ k = j ∧ v ∈ values := by
      rw [hvalues]
      constructor
      · rintro ⟨r, hr, rfl, hv⟩
        exact ⟨(hrun r hr).symm, r, hr, hv⟩
      · rintro ⟨rfl, r, hr, hv⟩
        exact ⟨r, hr, hrun r hr, hv⟩
    rw [listed_append, hlists, ← h.lists]
    unfold Listed
    simp only [List.mem_cons, exists_eq_or_imp]

/-- In a list sorted by its keys, **what follows the first run has greater keys**. -/
theorem lt_of_mem_dropWhile {α : Type} [LT κ] [DecidableEq κ] [Std.Trichotomous (α := κ) (· < ·)] [IsTrans κ (· < ·)]
    {key : α → κ} {a : α} {l : List α} (h : (a :: l).Pairwise (fun x y => ¬key y < key x)) {x : α}
    (hx : x ∈ l.dropWhile fun y => decide (key y = key a)) : key a < key x := by
  obtain ⟨hfirst, hl⟩ := List.pairwise_cons.1 h
  have hup : ∀ {y z : κ}, ¬z < y → y ≠ z → y < z := by
    intro y z hzy hne
    by_contra hyz
    exact hne (Std.Trichotomous.trichotomous y z hyz hzy)
  cases hdrop : l.dropWhile fun y => decide (key y = key a) with
  | nil =>
    rw [hdrop] at hx
    cases hx
  | cons y rest =>
    have hsub : (y :: rest).Sublist l := hdrop ▸ List.dropWhile_sublist _
    have hy : key y ≠ key a := by
      have := List.head_dropWhile_not (fun y => decide (key y = key a)) (l := l)
        (by rw [hdrop]; exact List.cons_ne_nil _ _)
      simp only [hdrop, List.head_cons, decide_eq_false_iff_not] at this
      exact this
    have hay : key a < key y := hup (hfirst y (hsub.subset List.mem_cons_self)) hy.symm
    rw [hdrop] at hx
    rcases List.mem_cons.1 hx with rfl | hx
    · exact hay
    · have hyx := (List.pairwise_cons.1 (hl.sublist hsub)).1 x hx
      by_cases heq : key y = key x
      · rwa [← heq]
      · exact IsTrans.trans _ _ _ hay (hup hyx heq)

end SortedTable
