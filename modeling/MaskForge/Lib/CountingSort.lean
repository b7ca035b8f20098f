import Mathlib
/-!
# CountingSort — rows of a compressed sparse layout, by prefix sums and a cursor per bucket

A list of `(bucket, value)` pairs is packed into one flat array: `offsets` holds the prefix sums of the bucket sizes,
and `scatter` drops every value at its bucket's cursor and moves the cursor on.  `scatter_row` says what that leaves:
the slice between two consecutive offsets is the bucket's values, in the order they came.

Nothing here knows what a bucket stands for.
-/
namespace CountingSort

variable {α : Type}

/-- The values of one bucket, in order. -/
def bucket (xs : List (Nat × α)) (i : Nat) : List α :=
  (xs.filter (fun x => x.1 == i)).map Prod.snd

/-- How many values one bucket gets. -/
def count (xs : List (Nat × α)) (i : Nat) : Nat := (bucket xs i).length

/-- `offset xs i` is the number of values in the buckets before `i`. -/
def offset (xs : List (Nat × α)) (i : Nat) : Nat := ((List.range i).map (count xs)).sum

/-- The flat array under construction and one cursor a bucket. -/
structure Slots (α : Type) where
  out : List α
  cursor : List Nat

/-- Drops one value at its bucket's cursor. -/
def place (s : Slots α) (x : Nat × α) : Slots α :=
  match s.cursor[x.1]? with
  | none => s
  | some p => ⟨s.out.set p x.2, s.cursor.set x.1 (p + 1)⟩

/-- The scatter loop over `n` buckets, the array filled with `fill` first. -/
def scatter (fill : α) (n : Nat) (xs : List (Nat × α)) : Slots α :=
  xs.foldl place ⟨List.replicate xs.length fill, (List.range n).map (offset xs)⟩

/-- A slice of a flat array, between two offsets. -/
def slice (l : List α) (lo hi : Nat) : List α := (l.drop lo).take (hi - lo)

theorem getElem?_slice (l : List α) (lo hi k : Nat) :
    (slice l lo hi)[k]? = if k < hi - lo then l[lo + k]? else none := by
  unfold slice
  rw [List.getElem?_take]
  split
  · rw [List.getElem?_drop]
  · rfl

/-- The offsets depend on the buckets alone. -/
theorem offset_congr {β : Type} {xs : List (Nat × α)} {ys : List (Nat × β)} (h : xs.map Prod.fst = ys.map Prod.fst)
    (i : Nat) :
    offset xs i = offset ys i := by
  have hcount : ∀ {γ : Type} (zs : List (Nat × γ)) (j : Nat), count zs j = (zs.map Prod.fst).count j := by
    intro γ zs j
    rw [count, bucket, List.length_map, ← List.countP_eq_length_filter, List.count, List.countP_map]
    rfl
  unfold offset
  congr 2
  funext j
  rw [hcount, hcount, h]

theorem offset_succ (xs : List (Nat × α)) (i : Nat) : offset xs (i + 1) = offset xs i + count xs i := by
  simp [offset, List.range_succ]

theorem offset_le (xs : List (Nat × α)) {i j : Nat} (h : i < j) : offset xs i + count xs i ≤ offset xs j := by
  induction j with
  | zero => omega
  | succ j ih =>
    rw [offset_succ]
    rcases Nat.lt_succ_iff_lt_or_eq.1 h with h | rfl
    · have := ih h
      omega
    · omega

theorem bucket_append (xs ys : List (Nat × α)) (i : Nat) : bucket (xs ++ ys) i = bucket xs i ++ bucket ys i := by
  simp [bucket]

theorem bucket_cons (x : Nat × α) (xs : List (Nat × α)) (i : Nat) :
    bucket (x :: xs) i = if x.1 = i then x.2 :: bucket xs i else bucket xs i := by
  unfold bucket
  by_cases h : x.1 = i <;> simp [h]

/-- Every value lands in one of the `n` buckets, so the offsets end at the number of values. -/
theorem offset_all (xs : List (Nat × α)) (n : Nat) (h : ∀ x ∈ xs, x.1 < n) : offset xs n = xs.length := by
  induction xs with
  | nil =>
    have hc : count ([] : List (Nat × α)) = fun _ => 0 := rfl
    simp [offset, hc]
  | cons x xs ih =>
    have hx := h x List.mem_cons_self
    have hrest := ih (fun y hy => h y (List.mem_cons_of_mem _ hy))
    have hc : ∀ i, count (x :: xs) i = count xs i + if x.1 = i then 1 else 0 := by
      intro i
      unfold count
      rw [bucket_cons]
      split <;> simp
    have hsum : ∀ m, offset (x :: xs) m = offset xs m + if x.1 < m then 1 else 0 := by
      intro m
      induction m with
      | zero => simp [offset]
      | succ m ihm =>
        rw [offset_succ, offset_succ, ihm, hc]
        split <;> split <;> split <;> omega
    rw [hsum n, hrest, if_pos hx]
    rfl

/-- What the scatter has done after the values `done`, with `rest` to come. -/
structure Placed (n : Nat) (fill : α) (done rest : List (Nat × α)) (s : Slots α) : Prop where
  outLen : s.out.length = (done ++ rest).length
  cursorLen : s.cursor.length = n
  cursorAt : ∀ i, i < n → s.cursor[i]? = some (offset (done ++ rest) i + count done i)
  filled : ∀ i, i < n → ∀ k v, (bucket done i)[k]? = some v → s.out[offset (done ++ rest) i + k]? = some v

theorem Placed.step {n : Nat} {fill : α} {done rest : List (Nat × α)} {x : Nat × α} {s : Slots α}
    (hall : ∀ y ∈ done ++ x :: rest, y.1 < n) (h : Placed n fill done (x :: rest) s) :
    Placed n fill (done ++ [x]) rest (place s x) := by
  have hx : x.1 < n := hall x (by simp)
  have hassoc : done ++ [x] ++ rest = done ++ x :: rest := by simp
  have hcount : ∀ i, count (done ++ x :: rest) i = count done i + count (x :: rest) i := by
    intro i
    simp [count, bucket_append]
  have hone : ∀ i, count (done ++ [x]) i = count done i + if x.1 = i then 1 else 0 := by
    intro i
    unfold count
    rw [bucket_append, List.length_append, bucket_cons]
    split <;> simp [bucket]
  -- the cursor of the value's bucket is inside the array
  have hroom : offset (done ++ x :: rest) x.1 + count done x.1 < (done ++ x :: rest).length := by
    have h1 := offset_le (done ++ x :: rest) hx
    rw [offset_all _ n hall, hcount] at h1
    have h2 : 0 < count (x :: rest) x.1 := by
      unfold count
      rw [bucket_cons, if_pos rfl]
      simp
    omega
  unfold place
  rw [h.cursorAt x.1 hx]
  refine ⟨?_, ?_, ?_, ?_⟩
  · simpa [hassoc] using h.outLen
  · simpa using h.cursorLen
  · intro i hi
    simp only [hassoc]
    rw [List.getElem?_set, hone]
    by_cases hix : x.1 = i
    · subst hix
      rw [if_pos rfl, if_pos (by rw [h.cursorLen]; exact hx), if_pos rfl, Nat.add_assoc]
    · rw [if_neg hix, if_neg hix, h.cursorAt i hi, Nat.add_zero]
  · intro i hi k v hk
    simp only [hassoc]
    rw [bucket_append, bucket_cons] at hk
    rw [List.getElem?_set]
    by_cases hlt : k < count done i
    · -- an earlier value: its slot is not the one written now
      have hk' : (bucket done i)[k]? = some v := by
        rw [List.getElem?_append_left (by exact hlt)] at hk
        exact hk
      have hne : ¬ offset (done ++ x :: rest) x.1 + count done x.1 = offset (done ++ x :: rest) i + k := by
        intro heq
        rcases Nat.lt_trichotomy x.1 i with hlt' | heq' | hgt
        · have := offset_le (done ++ x :: rest) hlt'
          rw [hcount] at this
          have h2 : 0 < count (x :: rest) x.1 := by
            unfold count
            rw [bucket_cons, if_pos rfl]
            simp
          omega
        · subst heq'
          omega
        · have := offset_le (done ++ x :: rest) hgt
          rw [hcount] at this
          omega
      rw [if_neg hne]
      exact h.filled i hi k v hk'
    · rw [List.getElem?_append_right (by simpa [count] using hlt)] at hk
      by_cases hix : x.1 = i
      · subst hix
        rw [if_pos rfl] at hk
        have hk0 : k = count done x.1 ∧ v = x.2 := by
          have : k - (bucket done x.1).length = 0 := by
            rcases Nat.eq_zero_or_pos (k - (bucket done x.1).length) with h0 | h0
            · exact h0
            · obtain ⟨m, hm⟩ : ∃ m, k - (bucket done x.1).length = m + 1 := ⟨_, (Nat.succ_pred_eq_of_pos h0).symm⟩
              rw [hm] at hk
              simp [bucket] at hk
          rw [this] at hk
          simp only [List.getElem?_cons_zero, Option.some.injEq] at hk
          refine ⟨?_, hk.symm⟩
          unfold count at hlt ⊢
          omega
        obtain ⟨rfl, rfl⟩ := hk0
        rw [if_pos rfl, if_pos (by rw [h.outLen]; exact hroom)]
      · rw [if_neg hix] at hk
        simp [bucket] at hk

theorem Placed.run {n : Nat} {fill : α} : ∀ (rest done : List (Nat × α)) (s : Slots α),
    (∀ y ∈ done ++ rest, y.1 < n) → Placed n fill done rest s → Placed n fill (done ++ rest) [] (rest.foldl place s)
  | [], done, s, _, h => by simpa using h
  | x :: rest, done, s, hall, h => by
    have hstep := Placed.step hall h
    have := Placed.run rest (done ++ [x]) (place s x) (by simpa using hall) hstep
    simpa using this

/-- The scatter loop, run to its end. -/
theorem placed_scatter (fill : α) (n : Nat) (xs : List (Nat × α)) (hall : ∀ x ∈ xs, x.1 < n) :
    Placed n fill xs [] (scatter fill n xs) := by
  have h0 : Placed n fill [] xs ⟨List.replicate xs.length fill, (List.range n).map (offset xs)⟩ :=
    ⟨by simp, by simp, fun i hi => by simp [hi, count, bucket], fun i _ k v hk => by simp [bucket] at hk⟩
  exact Placed.run xs [] _ (by simpa using hall) h0

/-- **A row of the packed array is its bucket**, in the order the values came. -/
theorem scatter_row (fill : α) (n : Nat) (xs : List (Nat × α)) (hall : ∀ x ∈ xs, x.1 < n) (i : Nat) (hi : i < n) :
    slice (scatter fill n xs).out (offset xs i) (offset xs (i + 1)) = bucket xs i := by
  have hrun := placed_scatter fill n xs hall
  apply List.ext_getElem?
  intro k
  rw [getElem?_slice, offset_succ, Nat.add_sub_cancel_left]
  by_cases hk : k < count xs i
  · rw [if_pos hk]
    have hsome : (bucket xs i)[k]? = some ((bucket xs i)[k]) := List.getElem?_eq_getElem hk
    rw [hsome]
    simpa using hrun.filled i hi k _ hsome
  · rw [if_neg hk, List.getElem?_eq_none (by unfold count at hk; omega)]

/-- **The packed array is the buckets end to end.** -/
theorem scatter_out (fill : α) (n : Nat) (xs : List (Nat × α)) (hall : ∀ x ∈ xs, x.1 < n) :
    (scatter fill n xs).out = ((List.range n).map (bucket xs)).flatten := by
  have hlen : (scatter fill n xs).out.length = offset xs n := by
    rw [(placed_scatter fill n xs hall).outLen, offset_all xs n hall, List.append_nil]
  -- up to each offset, the buckets before it
  have htake : ∀ m, m ≤ n → (scatter fill n xs).out.take (offset xs m) = ((List.range m).map (bucket xs)).flatten := by
    intro m
    induction m with
    | zero => intro _; simp [offset]
    | succ m ih =>
      intro hm
      have hrow := scatter_row fill n xs hall m hm
      rw [slice, offset_succ, Nat.add_sub_cancel_left] at hrow
      rw [offset_succ, List.take_add, ih (by omega), hrow, List.range_succ, List.map_append, List.flatten_append]
      simp
  rw [← htake n (Nat.le_refl n), ← hlen, List.take_length]

/-! ## Rows laid end to end -/

/-- Where row `i` starts when the rows are concatenated. -/
def start (rows : List (List α)) (i : Nat) : Nat := ((rows.take i).map List.length).sum

theorem start_append_left (done rest : List (List α)) {i : Nat} (h : i ≤ done.length) :
    start (done ++ rest) i = start done i := by
  unfold start
  rw [List.take_append_of_le_length h]

theorem start_length (rows : List (List α)) : start rows rows.length = rows.flatten.length := by
  unfold start
  rw [List.take_length, List.length_flatten]

/-- The row after a row starts where the row ends. -/
theorem start_succ {rows : List (List α)} {i : Nat} {row : List α} (h : rows[i]? = some row) :
    start rows (i + 1) = start rows i + row.length := by
  unfold start
  rw [List.take_add_one, h, Option.toList_some, List.map_append, List.sum_append, List.map_singleton,
    List.sum_singleton]

/-- Buckets laid out as rows start at their offsets. -/
theorem start_buckets (xs : List (Nat × α)) (n : Nat) {i : Nat} (h : i ≤ n) :
    start ((List.range n).map (bucket xs)) i = offset xs i := by
  unfold start offset
  rw [← List.map_take, List.take_range, Nat.min_eq_left h, List.map_map]
  rfl

/-- One more row: its start is where the rows so far end. -/
theorem map_start_snoc (rows : List (List α)) (row : List α) :
    (List.range rows.length).map (start rows) ++ [rows.flatten.length] =
      (List.range (rows ++ [row]).length).map (start (rows ++ [row])) := by
  rw [List.length_append, List.length_singleton, List.range_succ, List.map_append, List.map_singleton]
  rw [start_append_left _ _ (Nat.le_refl _), start_length]
  congr 1
  apply List.map_congr_left
  intro i hi
  have := List.mem_range.1 hi
  rw [start_append_left _ _ (by omega)]

/-- **A row of the concatenation is the row.** -/
theorem slice_flatten : ∀ (rows : List (List α)) (i : Nat) (row : List α), rows[i]? = some row →
    slice rows.flatten (start rows i) (start rows (i + 1)) = row
  | [], _, _, h => by cases h
  | r :: rows, 0, row, h => by
    cases h
    simp [slice, start]
  | r :: rows, i + 1, row, h => by
    have ih := slice_flatten rows i row h
    have hs : ∀ j, start (r :: rows) (j + 1) = r.length + start rows j := by
      intro j
      simp [start]
    rw [hs i, hs (i + 1), List.flatten_cons]
    unfold slice at ih ⊢
    rw [List.drop_append, Nat.add_sub_cancel_left, List.drop_eq_nil_of_le (by omega), List.nil_append]
    have hd : r.length + start rows (i + 1) - (r.length + start rows i) = start rows (i + 1) - start rows i := by omega
    rw [hd]
    exact ih

end CountingSort
