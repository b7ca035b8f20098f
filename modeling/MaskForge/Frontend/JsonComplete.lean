import MaskForge.Frontend.JsonSound
/-!
# JsonComplete — the schema parser reads all of JSON

Where a value of the grammar stands and something that may follow a value comes behind it, the parser returns that value
and the position behind it, with fuel for three calls a byte.
-/
namespace MaskForge
namespace JsonParser

open Decimal (IsDigit)
open NumberForm (NumberText)

variable {bytes : List Byte}

/-! ### First bytes -/

theorem number_first {t : NumberText} (ht : t.Json) : ∃ b rest, t.text = b :: rest ∧ (b = 0x2d ∨ IsDigit b) := by
  obtain ⟨b, u, hb⟩ := ht.noLeadingZero.cons
  have hdigit := ht.integer.2 b (hb ▸ List.mem_cons_self)
  rw [NumberText.text, hb]
  cases t.negative with
  | true => exact ⟨_, _, rfl, .inl rfl⟩
  | false => exact ⟨b, _, rfl, .inr hdigit⟩

/-- A value begins with none of the bytes that are looked for around it. -/
theorem value_first {a : Ast} {w : List Byte} (h : Derives (.value a) w) :
    ∃ b rest, w = b :: rest ∧ ¬ IsWhitespace b ∧ b ≠ 0x5d ∧ b ≠ 0x7d := by
  cases h with
  | num t json =>
    obtain ⟨b, rest, htext, hb⟩ := number_first json
    refine ⟨b, rest, htext, ?_⟩
    rcases hb with rfl | hb
    · decide
    · refine ⟨?_, ?_, ?_⟩
      · rintro (rfl | rfl | rfl | rfl) <;> exact absurd hb (by decide)
      · rintro rfl
        exact absurd hb (by decide)
      · rintro rfl
        exact absurd hb (by decide)
  | str quoted =>
    obtain ⟨body, _, rfl⟩ := quoted
    exact ⟨_, _, rfl, by decide⟩
  | _ => exact ⟨_, _, rfl, by decide⟩

theorem skipWs_idem (pos : Nat) : skipWs bytes (skipWs bytes pos) = skipWs bytes pos := by
  obtain ⟨u, _, _, hskip, hend⟩ := skipWs_spec bytes pos
  rw [hskip]
  exact skipWs_eq (fun _ h => absurd h List.not_mem_nil) (stands_nil _) hend

/-- White space is skipped up to what does not begin with any. -/
theorem skipWs_stands {pos : Nat} {u w : List Byte} {b : Byte} (hu : Whitespace u) (h : Stands bytes pos (u ++ b :: w))
    (hb : ¬ IsWhitespace b) : skipWs bytes pos = pos + u.length := by
  obtain ⟨hstandsU, hrest⟩ := stands_append.1 h
  refine skipWs_eq hu hstandsU fun c hc => ?_
  rw [(stands_cons.1 hrest).1] at hc
  cases hc
  exact hb

/-- White space and then a comma or a bracket may follow a value. -/
theorem ends_stands {pos : Nat} {u w : List Byte} {b : Byte} (hu : Whitespace u) (h : Stands bytes pos (u ++ b :: w))
    (hb : b = 0x2c ∨ b = 0x5d ∨ b = 0x7d) : Ends bytes pos := by
  intro c hc
  cases u with
  | nil =>
    rw [(stands_cons.1 h).1] at hc
    cases hc
    exact .inr hb
  | cons x u =>
    rw [(stands_cons.1 h).1] at hc
    cases hc
    exact .inl (hu c List.mem_cons_self)

/-! ### Values -/

/-- What the parser does on the forms of the grammar. -/
def Reads (bytes : List Byte) : JsonForm → List Byte → Prop
  | .value a, w => ∀ {pos depth fuel : Nat}, Stands bytes pos w → Ends bytes (pos + w.length) →
    depth + a.depth ≤ maxParseDepth →
      3 * (bytes.length - pos) + 3 ≤ fuel → value bytes fuel depth pos = .ok (a, pos + w.length)
  | .items as, w => ∀ {pos depth fuel : Nat} {items : List Ast}, Stands bytes pos (w ++ [0x5d]) →
      depth + Ast.depthItems as ≤ maxParseDepth →
      3 * (bytes.length - pos) + 4 ≤ fuel →
        arrayLoop bytes fuel depth items pos = .ok (.arr (items ++ as), pos + w.length + 1)
  | .members ms, w => ∀ {pos depth fuel : Nat} {fields : List (Text × Ast)}, Stands bytes pos (w ++ [0x7d]) →
      depth + Ast.depthFields ms ≤ maxParseDepth → 3 * (bytes.length - pos) + 4 ≤ fuel →
        objectLoop bytes fuel depth fields pos = .ok (.obj (fields ++ ms), pos + w.length + 1)

theorem literal_eq {word : List Byte} {ast : Ast} {pos : Nat} (h : Stands bytes pos word) (hne : word ≠ []) :
    literal bytes word ast pos = .ok (ast, pos + word.length) := by
  have hbound := h.lt hne
  rw [literal, if_neg (by omega), if_pos (List.isPrefixOf_iff_prefix.2 h)]

theorem value_number {fuel depth pos : Nat} {b : Byte} (hb : bytes[pos]? = some b) (hnumber : b = 0x2d ∨ IsDigit b) :
    value bytes (fuel + 1) depth pos = number bytes pos := by
  have hnot : ∀ c : Byte, ¬(c = 0x2d ∨ IsDigit c) → b ≠ c := fun c hc h => hc (h ▸ hnumber)
  rw [value, hb]
  dsimp only
  rw [if_neg (hnot _ (by decide)), if_neg (hnot _ (by decide)), if_neg (hnot _ (by decide)),
    if_neg (hnot _ (by decide)),
    if_neg (hnot _ (by decide)), if_neg (hnot _ (by decide)), if_pos hnumber]

theorem value_array {fuel depth pos : Nat} (hb : bytes[pos]? = some 0x5b) (hdepth : depth + 1 ≤ maxParseDepth) :
    value bytes (fuel + 1) depth pos = array bytes fuel (depth + 1) pos := by
  rw [value, hb]
  dsimp only
  rw [if_neg (by decide), if_pos rfl, if_neg (by omega)]

theorem value_object {fuel depth pos : Nat} (hb : bytes[pos]? = some 0x7b) (hdepth : depth + 1 ≤ maxParseDepth) :
    value bytes (fuel + 1) depth pos = object bytes fuel (depth + 1) pos := by
  rw [value, hb]
  dsimp only
  rw [if_pos rfl, if_neg (by omega)]

/-- A loop skips white space itself. -/
theorem arrayLoop_skip {fuel depth pos : Nat} {items : List Ast} :
    arrayLoop bytes (fuel + 1) depth items (skipWs bytes pos) = arrayLoop bytes (fuel + 1) depth items pos := by
  rw [arrayLoop, arrayLoop, skipWs_idem]

theorem objectLoop_skip {fuel depth pos : Nat} {fields : List (Text × Ast)} :
    objectLoop bytes (fuel + 1) depth fields (skipWs bytes pos) = objectLoop bytes (fuel + 1) depth fields pos := by
  rw [objectLoop, objectLoop, skipWs_idem]

theorem items_first {as : List Ast} {w : List Byte} (h : Derives (.items as) w) :
    ∃ u b rest, w = u ++ b :: rest ∧ Whitespace u ∧ ¬ IsWhitespace b ∧ b ≠ 0x5d := by
  cases h with
  | @item u v w a hu h hw =>
    obtain ⟨b, rest, rfl, hb, hclose, _⟩ := value_first h
    exact ⟨u, b, rest ++ w, by simp, hu, hb, hclose⟩
  | @items u v w rest' a as hu h hw more =>
    obtain ⟨b, rest, rfl, hb, hclose, _⟩ := value_first h
    exact ⟨u, b, rest ++ (w ++ 0x2c :: rest'), by simp, hu, hb, hclose⟩

theorem members_first {ms : List (Text × Ast)} {w : List Byte} (h : Derives (.members ms) w) :
    ∃ u rest, w = u ++ 0x22 :: rest ∧ Whitespace u := by
  cases h with
  | @member u k u' w v w' key a hu quoted hu' hw h hw' =>
    obtain ⟨body, _, rfl⟩ := quoted
    exact ⟨u, body ++ 0x22 :: (u' ++ 0x3a :: (w ++ (v ++ w'))), by simp, hu⟩
  | @members u k u' w v w' rest key a ms hu quoted hu' hw h hw' more =>
    obtain ⟨body, _, rfl⟩ := quoted
    exact ⟨u, body ++ 0x22 :: (u' ++ 0x3a :: (w ++ (v ++ (w' ++ 0x2c :: rest)))), by simp, hu⟩

theorem reads_array {as : List Ast} {w : List Byte} (hd : Derives (.items as) w) (ih : Reads bytes (.items as) w) :
    Reads bytes (.value (.arr as)) (0x5b :: w ++ [0x5d]) := by
  intro pos depth fuel h _ hdepth hfuel
  have hb := (stands_cons.1 h).1
  have hpos := (List.getElem?_eq_some_iff.1 hb).1
  have hrest : Stands bytes (pos + 1) (w ++ [0x5d]) := (stands_cons.1 h).2
  obtain ⟨fuel, rfl⟩ : ∃ n, fuel = n + 3 := ⟨fuel - 3, by omega⟩
  obtain ⟨u, b, rest, rfl, hu, hnws, hclose⟩ := items_first hd
  rw [Ast.depth] at hdepth
  have hloop : arrayLoop bytes (fuel + 1) (depth + 1) [] (pos + 1) = .ok
    (.arr ([] ++ as), pos + 1 + (u ++ b :: rest).length + 1) :=
    ih hrest (by omega) (by omega)
  rw [List.append_assoc, List.cons_append] at hrest
  have hskip := skipWs_stands hu hrest hnws
  have hnext : bytes[skipWs bytes (pos + 1)]? = some b := by
    rw [hskip]
    exact (stands_cons.1 (stands_append.1 hrest).2).1
  have hlen : pos + (0x5b :: (u ++ b :: rest) ++ [0x5d]).length = pos + 1 + (u ++ b :: rest).length + 1 := by
    simp only [List.length_append, List.length_cons, List.length_nil]
    omega
  rw [value_array hb (by omega), array, hnext, if_neg (by simpa using hclose), arrayLoop_skip, hloop, hlen,
    List.nil_append]

theorem reads_object {ms : List (Text × Ast)} {w : List Byte} (hd : Derives (.members ms) w)
    (ih : Reads bytes (.members ms) w) :
    Reads bytes (.value (.obj ms)) (0x7b :: w ++ [0x7d]) := by
  intro pos depth fuel h _ hdepth hfuel
  have hb := (stands_cons.1 h).1
  have hpos := (List.getElem?_eq_some_iff.1 hb).1
  have hrest : Stands bytes (pos + 1) (w ++ [0x7d]) := (stands_cons.1 h).2
  obtain ⟨fuel, rfl⟩ : ∃ n, fuel = n + 3 := ⟨fuel - 3, by omega⟩
  obtain ⟨u, rest, rfl, hu⟩ := members_first hd
  rw [Ast.depth] at hdepth
  have hloop : objectLoop bytes (fuel + 1) (depth + 1) [] (pos + 1) = .ok
    (.obj ([] ++ ms), pos + 1 + (u ++ 0x22 :: rest).length + 1) :=
    ih hrest (by omega) (by omega)
  rw [List.append_assoc, List.cons_append] at hrest
  have hskip := skipWs_stands hu hrest (by decide)
  have hnext : bytes[skipWs bytes (pos + 1)]? = some 0x22 := by
    rw [hskip]
    exact (stands_cons.1 (stands_append.1 hrest).2).1
  have hlen : pos + (0x7b :: (u ++ 0x22 :: rest) ++ [0x7d]).length = pos + 1 + (u ++ 0x22 :: rest).length + 1 := by
    simp only [List.length_append, List.length_cons, List.length_nil]
    omega
  rw [value_object hb (by omega), object, hnext, if_neg (by simp), objectLoop_skip, hloop, hlen, List.nil_append]

/-- One item of an array and what comes behind it, up to the byte that decides how the loop goes on. -/
theorem reads_item {u v w rest : List Byte} {a : Ast} {b : Byte} (hu : Whitespace u) (hd : Derives (.value a) v)
    (hw : Whitespace w) (ih : Reads bytes (.value a) v) {pos depth fuel : Nat} {items : List Ast}
    (h : Stands bytes pos (u ++ v ++ w ++ b :: rest))
    (hb : b = 0x2c ∨ b = 0x5d) (hdepth : depth + a.depth ≤ maxParseDepth)
    (hfuel : 3 * (bytes.length - pos) + 4 ≤ fuel + 1) :
    arrayLoop bytes (fuel + 1) depth items pos =
      if b = 0x2c then arrayLoop bytes fuel depth (items ++ [a]) (pos + (u ++ v ++ w).length + 1)
      else .ok (.arr (items ++ [a]), pos + (u ++ v ++ w).length + 1) := by
  obtain ⟨c, vs, hv, hnws, _⟩ := value_first hd
  have hbracket : b = 0x2c ∨ b = 0x5d ∨ b = 0x7d := hb.elim .inl fun h => .inr (.inl h)
  have hnot : ¬ IsWhitespace b := by rcases hb with rfl | rfl <;> decide
  rw [List.append_assoc, stands_append] at h
  have hrest := h.2
  obtain ⟨hstandsU, hstandsV⟩ := stands_append.1 h.1
  have hskip : skipWs bytes pos = pos + u.length := by
    have hfirst := h.1
    rw [hv] at hfirst
    exact skipWs_stands hu hfirst hnws
  rw [List.length_append, ← Nat.add_assoc] at hrest
  have hends := ends_stands hw hrest hbracket
  have hskip' := skipWs_stands hw hrest hnot
  have hlen : pos + u.length + v.length + w.length = pos + (u ++ v ++ w).length := by
    simp only [List.length_append]
    omega
  have hnext := (stands_cons.1 (stands_append.1 hrest).2).1
  rw [hlen] at hskip' hnext
  have hvalue : value bytes fuel depth (pos + u.length) = .ok (a, pos + u.length + v.length) :=
    ih hstandsV hends hdepth (by omega)
  rw [arrayLoop, hskip]
  simp only [hvalue, bind, Except.bind, hskip', hnext, Option.some.injEq]
  rcases hb with rfl | rfl
  · rfl
  · rfl

theorem reads_items_one {u v w : List Byte} {a : Ast} (hu : Whitespace u) (hd : Derives (.value a) v)
    (hw : Whitespace w) (ih : Reads bytes (.value a) v) : Reads bytes (.items [a]) (u ++ v ++ w) := by
  intro pos depth fuel items h hdepth hfuel
  obtain ⟨fuel, rfl⟩ : ∃ n, fuel = n + 1 := ⟨fuel - 1, by omega⟩
  rw [Ast.depthItems, Ast.depthItems] at hdepth
  rw [reads_item hu hd hw ih h (.inr rfl) (by omega) hfuel]
  rfl

theorem reads_items_more {u v w rest : List Byte} {a : Ast} {as : List Ast} (hu : Whitespace u)
    (hd : Derives (.value a) v)
    (hw : Whitespace w) (ih : Reads bytes (.value a) v) (more : Reads bytes (.items as) rest) :
    Reads bytes (.items (a :: as)) (u ++ v ++ w ++ 0x2c :: rest) := by
  intro pos depth fuel items h hdepth hfuel
  obtain ⟨fuel, rfl⟩ : ∃ n, fuel = n + 1 := ⟨fuel - 1, by omega⟩
  rw [Ast.depthItems] at hdepth
  rw [List.append_assoc, List.cons_append] at h
  have hstands := stands_cons.1 (stands_append.1 h).2
  have hpos := (List.getElem?_eq_some_iff.1 hstands.1).1
  have hmore : arrayLoop bytes fuel depth (items ++ [a]) (pos + (u ++ v ++ w).length + 1) =
      .ok (.arr (items ++ [a] ++ as), pos + (u ++ v ++ w).length + 1 + rest.length + 1) :=
        more hstands.2 (by omega) (by omega)
  have hlen : pos + (u ++ v ++ w ++ 0x2c :: rest).length + 1 = pos + (u ++ v ++ w).length + 1 + rest.length + 1 := by
    have hsum : (u ++ v ++ w ++ 0x2c :: rest).length = (u ++ v ++ w).length + (rest.length + 1) := List.length_append
    omega
  rw [reads_item hu hd hw ih h (.inl rfl) (by omega) hfuel, if_pos rfl, hmore, hlen, List.append_assoc]
  rfl

/-- One member of an object and what comes behind it. -/
theorem reads_member {u k u' w v w' rest : List Byte} {key : Text} {a : Ast} {b : Byte} (hu : Whitespace u)
    (quoted : Quoted k key) (hu' : Whitespace u') (hw : Whitespace w) (hd : Derives (.value a) v) (hw' : Whitespace w')
    (ih : Reads bytes (.value a) v) {pos depth fuel : Nat} {fields : List (Text × Ast)}
    (h : Stands bytes pos (u ++ k ++ u' ++ 0x3a :: (w ++ v ++ w') ++ b :: rest))
    (hb : b = 0x2c ∨ b = 0x7d) (hdepth : depth + a.depth ≤ maxParseDepth)
    (hfuel : 3 * (bytes.length - pos) + 4 ≤ fuel + 1) :
    objectLoop bytes (fuel + 1) depth fields pos =
      if b = 0x2c then objectLoop bytes fuel depth (fields ++ [(key, a)])
        (pos + (u ++ k ++ u' ++ 0x3a :: (w ++ v ++ w')).length + 1)
      else .ok (.obj (fields ++ [(key, a)]), pos + (u ++ k ++ u' ++ 0x3a :: (w ++ v ++ w')).length + 1) := by
  obtain ⟨c, vs, hv, hnws, _⟩ := value_first hd
  have hbracket : b = 0x2c ∨ b = 0x5d ∨ b = 0x7d := hb.elim .inl fun h => .inr (.inr h)
  have hnot : ¬ IsWhitespace b := by rcases hb with rfl | rfl <;> decide
  simp only [List.append_assoc, List.cons_append] at h
  obtain ⟨hstandsU, hK⟩ := stands_append.1 h
  obtain ⟨hstandsK, hU'⟩ := stands_append.1 hK
  obtain ⟨hcolon, hW⟩ := stands_cons.1 (stands_append.1 hU').2
  obtain ⟨hstandsW, hV⟩ := stands_append.1 hW
  obtain ⟨hstandsV, hW'⟩ := stands_append.1 hV
  obtain ⟨body, hbody, hk⟩ := id quoted
  have hskip : skipWs bytes pos = pos + u.length := by
    rw [hk] at h
    exact skipWs_stands hu h (by decide)
  have hquote : bytes[pos + u.length]? = some 0x22 := by
    rw [hk] at hstandsK
    exact (stands_cons.1 hstandsK).1
  have hskip' := skipWs_stands hu' hU' (by decide)
  have hskip₂ : skipWs bytes (pos + u.length + k.length + u'.length + 1) = pos + u.length + k.length + u'.length + 1 +
    w.length := by
    rw [hv] at hW
    exact skipWs_stands hw hW hnws
  have hskip₃ := skipWs_stands hw' hW' hnot
  have hnext := (stands_cons.1 (stands_append.1 hW').2).1
  have hlen : pos + u.length + k.length + u'.length + 1 + w.length + v.length + w'.length =
      pos + (u ++ k ++ u' ++ 0x3a :: (w ++ v ++ w')).length := by
    simp only [List.length_append, List.length_cons]
    omega
  have hvalue : value bytes fuel depth (pos + u.length + k.length + u'.length + 1 + w.length) =
      .ok (a, pos + u.length + k.length + u'.length + 1 + w.length + v.length) :=
        ih hstandsV (ends_stands hw' hW' hbracket) hdepth (by omega)
  rw [hlen] at hskip₃ hnext
  rw [objectLoop, hskip, if_neg (not_not_intro hquote)]
  simp only [string_eq quoted hstandsK, bind, Except.bind, hskip', if_neg (not_not_intro hcolon), hskip₂, hvalue,
    hskip₃, hnext, Option.some.injEq]
  rcases hb with rfl | rfl
  · rfl
  · rfl

theorem reads_members_one {u k u' w v w' : List Byte} {key : Text} {a : Ast} (hu : Whitespace u) (quoted : Quoted k key)
    (hu' : Whitespace u') (hw : Whitespace w) (hd : Derives (.value a) v) (hw' : Whitespace w')
    (ih : Reads bytes (.value a) v) :
    Reads bytes (.members [(key, a)]) (u ++ k ++ u' ++ 0x3a :: (w ++ v ++ w')) := by
  intro pos depth fuel fields h hdepth hfuel
  obtain ⟨fuel, rfl⟩ : ∃ n, fuel = n + 1 := ⟨fuel - 1, by omega⟩
  rw [Ast.depthFields, Ast.depthFields] at hdepth
  rw [reads_member hu quoted hu' hw hd hw' ih h (.inr rfl) (by omega) hfuel]
  rfl

theorem reads_members_more {u k u' w v w' rest : List Byte} {key : Text} {a : Ast} {ms : List (Text × Ast)}
    (hu : Whitespace u)
    (quoted : Quoted k key) (hu' : Whitespace u') (hw : Whitespace w) (hd : Derives (.value a) v) (hw' : Whitespace w')
    (ih : Reads bytes (.value a) v) (more : Reads bytes (.members ms) rest) :
    Reads bytes (.members ((key, a) :: ms)) (u ++ k ++ u' ++ 0x3a :: (w ++ v ++ w') ++ 0x2c :: rest) := by
  intro pos depth fuel fields h hdepth hfuel
  obtain ⟨fuel, rfl⟩ : ∃ n, fuel = n + 1 := ⟨fuel - 1, by omega⟩
  rw [Ast.depthFields] at hdepth
  rw [List.append_assoc, List.cons_append] at h
  have hstands := stands_cons.1 (stands_append.1 h).2
  have hpos := (List.getElem?_eq_some_iff.1 hstands.1).1
  have hmore : objectLoop bytes fuel depth (fields ++ [(key, a)])
    (pos + (u ++ k ++ u' ++ 0x3a :: (w ++ v ++ w')).length + 1) =
      .ok (.obj (fields ++ [(key, a)] ++ ms), pos + (u ++ k ++ u' ++ 0x3a :: (w ++ v ++ w')).length + 1 +
        rest.length + 1) :=
    more hstands.2 (by omega) (by omega)
  have hlen : pos + (u ++ k ++ u' ++ 0x3a :: (w ++ v ++ w') ++ 0x2c :: rest).length + 1 =
      pos + (u ++ k ++ u' ++ 0x3a :: (w ++ v ++ w')).length + 1 + rest.length + 1 := by
    have hsum : (u ++ k ++ u' ++ 0x3a :: (w ++ v ++ w') ++ 0x2c :: rest).length =
        (u ++ k ++ u' ++ 0x3a :: (w ++ v ++ w')).length + (rest.length + 1) := List.length_append
    omega
  rw [reads_member hu quoted hu' hw hd hw' ih h (.inl rfl) (by omega) hfuel, if_pos rfl, hmore, hlen, List.append_assoc]
  rfl

/-- **Whatever is derived is read.** -/
theorem derives_reads {form : JsonForm} {w : List Byte} (h : Derives form w) : Reads bytes form w := by
  induction h with
  | null =>
    intro pos depth fuel h _ _ hfuel
    obtain ⟨fuel, rfl⟩ : ∃ n, fuel = n + 1 := ⟨fuel - 1, by omega⟩
    rw [← literal_eq h (by simp), value, (stands_cons.1 h).1]
    rfl
  | bool_true =>
    intro pos depth fuel h _ _ hfuel
    obtain ⟨fuel, rfl⟩ : ∃ n, fuel = n + 1 := ⟨fuel - 1, by omega⟩
    rw [← literal_eq h (by simp), value, (stands_cons.1 h).1]
    rfl
  | bool_false =>
    intro pos depth fuel h _ _ hfuel
    obtain ⟨fuel, rfl⟩ : ∃ n, fuel = n + 1 := ⟨fuel - 1, by omega⟩
    rw [← literal_eq h (by simp), value, (stands_cons.1 h).1]
    rfl
  | num t json =>
    intro pos depth fuel h hend _ hfuel
    obtain ⟨fuel, rfl⟩ : ∃ n, fuel = n + 1 := ⟨fuel - 1, by omega⟩
    obtain ⟨b, rest, htext, hb⟩ := number_first json
    have hnext : bytes[pos]? = some b := (stands_cons.1 (htext ▸ h)).1
    rw [value_number hnext hb, number_eq json h (Nat.le_of_lt (List.getElem?_eq_some_iff.1 hnext).1) hend]
  | @str w s quoted =>
    intro pos depth fuel h _ _ hfuel
    obtain ⟨fuel, rfl⟩ : ∃ n, fuel = n + 1 := ⟨fuel - 1, by omega⟩
    have hstring := string_eq quoted h
    obtain ⟨body, _, rfl⟩ := quoted
    rw [value, (stands_cons.1 h).1]
    dsimp only
    rw [if_neg (by decide), if_neg (by decide), if_pos rfl, hstring]
    rfl
  | @arr_nil u hu =>
    intro pos depth fuel h _ hdepth hfuel
    have hb := (stands_cons.1 h).1
    have hpos := (List.getElem?_eq_some_iff.1 hb).1
    have hrest : Stands bytes (pos + 1) (u ++ [0x5d]) := (stands_cons.1 h).2
    obtain ⟨fuel, rfl⟩ : ∃ n, fuel = n + 2 := ⟨fuel - 2, by omega⟩
    have hskip := skipWs_stands hu hrest (by decide)
    rw [Ast.depth] at hdepth
    rw [value_array hb (by omega), array, hskip, if_pos (stands_cons.1 (stands_append.1 hrest).2).1, List.length_append,
      List.length_cons, List.length_singleton, show pos + 1 + u.length + 1 = pos + (u.length + 1 + 1) by omega]
  | arr h ih => exact reads_array h ih
  | @obj_nil u hu =>
    intro pos depth fuel h _ hdepth hfuel
    have hb := (stands_cons.1 h).1
    have hpos := (List.getElem?_eq_some_iff.1 hb).1
    have hrest : Stands bytes (pos + 1) (u ++ [0x7d]) := (stands_cons.1 h).2
    obtain ⟨fuel, rfl⟩ : ∃ n, fuel = n + 2 := ⟨fuel - 2, by omega⟩
    have hskip := skipWs_stands hu hrest (by decide)
    rw [Ast.depth] at hdepth
    rw [value_object hb (by omega), object, hskip, if_pos (stands_cons.1 (stands_append.1 hrest).2).1,
      List.length_append, List.length_cons,
      List.length_singleton, show pos + 1 + u.length + 1 = pos + (u.length + 1 + 1) by omega]
  | obj h ih => exact reads_object h ih
  | item hu h hw ih => exact reads_items_one hu h hw ih
  | items hu h hw _ ih ihMore => exact reads_items_more hu h hw ih ihMore
  | member hu quoted hu' hw h hw' ih => exact reads_members_one hu quoted hu' hw h hw' ih
  | members hu quoted hu' hw h hw' _ ih ihMore => exact reads_members_more hu quoted hu' hw h hw' ih ihMore

/-! ### No run stops without a reason -/

/-- A run that fails has an error to report. -/
def Proper {α : Type} (r : Except Stop α) : Prop := ∀ stop, r = .error stop → ∃ e, stop = .error e

theorem proper_ok {α : Type} (a : α) : Proper (.ok a) := fun _ h => by cases h

theorem proper_malformed {α : Type} (message : String) : Proper (.error (malformed message) : Except Stop α) :=
  fun _ h => by
  cases h
  exact ⟨_, rfl⟩

theorem Proper.bind {α β : Type} {x : Except Stop α} {f : α → Except Stop β} (hx : Proper x)
    (hf : ∀ a, x = .ok a → Proper (f a)) :
    Proper (x >>= f) := by
  cases x with
  | error stop =>
    intro stop' h
    cases h
    exact hx stop rfl
  | ok a => exact hf a rfl

theorem Proper.map {α β : Type} {x : Except Stop α} (hx : Proper x) (f : α → β) : Proper (x.map f) := by
  cases x with
  | error stop =>
    intro stop' h
    cases h
    exact hx stop rfl
  | ok a => exact proper_ok (f a)

theorem digits_proper (pos : Nat) : Proper (digits bytes pos) := by
  unfold digits
  dsimp only
  split
  · exact proper_malformed _
  · exact proper_ok _

theorem number_proper {start : Nat} (hstart : start < bytes.length) : Proper (number bytes start) := by
  obtain ⟨sign, hsign, hskip, _⟩ := skipIf_spec bytes (fun b => decide (b = 0x2d)) start
  rw [number, hskip]
  refine Proper.bind ?_ fun p₁ h₁ => Proper.bind ?_ fun p₂ h₂ => Proper.bind ?_ fun p₃ h₃ => ?_
  · unfold integerPart
    repeat' split
    · exact proper_ok _
    · exact digits_proper _
    · exact proper_malformed _
    · exact proper_malformed _
  · unfold fractionPart
    split
    · exact digits_proper _
    · exact proper_ok _
  · unfold exponentPart
    split
    · exact digits_proper _
    · exact proper_ok _
  · obtain ⟨integer, hinteger, hstands₁, rfl⟩ := integerPart_spec h₁
    obtain ⟨fraction, _, hstands₂, rfl⟩ := fractionPart_spec h₂
    obtain ⟨exponent, _, hstands₃, rfl⟩ := exponentPart_spec h₃
    have hle := hstands₃.length_le (hstands₂.length_le (hstands₁.length_le (hsign.length_le (Nat.le_of_lt hstart))))
    rw [if_neg (by omega)]
    dsimp only
    split
    · exact proper_ok _
    · exact proper_malformed _

theorem hex4_proper (pos : Nat) : Proper (hex4 bytes pos) := by
  unfold hex4
  split
  · exact proper_malformed _
  · split
    · exact proper_ok _
    · exact proper_malformed _

theorem escape_proper (pos : Nat) : Proper (escape bytes pos) := by
  unfold escape
  split
  · exact proper_malformed _
  split
  · exact proper_ok _
  split
  swap
  · exact proper_malformed _
  refine Proper.bind (hex4_proper _) fun r _ => Proper.bind ?_ fun r' _ => ?_
  · unfold codePoint
    split
    · split
      · exact proper_malformed _
      · refine Proper.bind (hex4_proper _) fun r _ => ?_
        dsimp only
        split
        · exact proper_malformed _
        · exact proper_ok _
    · split
      · exact proper_malformed _
      · exact proper_ok _
  · dsimp only
    split
    · exact proper_ok _
    · exact proper_malformed _

theorem utf8Char_proper {pos : Nat} (hpos : pos < bytes.length) : Proper (utf8Char bytes pos) := by
  unfold utf8Char
  rw [List.getElem?_eq_getElem hpos]
  dsimp only
  split
  · exact proper_malformed _
  split
  · exact proper_malformed _
  split
  · exact proper_malformed _
  · exact proper_malformed _
  · exact proper_ok _

/-- A step for each byte of a string is enough. -/
theorem stringBody_proper :
    ∀ {fuel pos : Nat} {out : Text}, bytes.length - pos + 1 ≤ fuel → Proper (stringBody bytes fuel out pos)
  | 0, _, _, h => absurd h (by omega)
  | fuel + 1, pos, out, h => by
    rw [stringBody]
    split
    · exact proper_malformed _
    rename_i b hb
    have hpos := (List.getElem?_eq_some_iff.1 hb).1
    split
    · exact proper_ok _
    split
    · refine Proper.bind (escape_proper _) fun r hr => ?_
      obtain ⟨u, _, hnext, _⟩ := escape_spec hr
      exact stringBody_proper (by omega)
    split
    · exact proper_malformed _
    · refine Proper.bind (utf8Char_proper hpos) fun r hr => ?_
      have hnext := (utf8Char_spec hr).2
      have hlen := List.length_pos_iff.2 (utf8Encode_ne_nil r.1)
      exact stringBody_proper (by omega)

theorem string_proper (pos : Nat) : Proper (string bytes pos) := stringBody_proper (by omega)

/-- What the functions of the parser do with fuel for three calls a byte. -/
structure Total (bytes : List Byte) (fuel : Nat) : Prop where
  value : ∀ {depth pos : Nat}, 3 * (bytes.length - pos) + 3 ≤ fuel → Proper (value bytes fuel depth pos)
  object : ∀ {depth pos : Nat}, depth ≤ maxParseDepth → pos < bytes.length → 3 * (bytes.length - pos) + 2 ≤ fuel →
    Proper (object bytes fuel depth pos)
  objectLoop : ∀ {depth pos : Nat} {fields : List (Text × Ast)}, depth ≤ maxParseDepth →
  3 * (bytes.length - pos) + 4 ≤ fuel →
    Proper (objectLoop bytes fuel depth fields pos)
  array : ∀ {depth pos : Nat}, depth ≤ maxParseDepth → pos < bytes.length → 3 * (bytes.length - pos) + 2 ≤ fuel →
    Proper (array bytes fuel depth pos)
  arrayLoop : ∀ {depth pos : Nat} {items : List Ast}, depth ≤ maxParseDepth → 3 * (bytes.length - pos) + 4 ≤ fuel →
    Proper (arrayLoop bytes fuel depth items pos)

theorem le_skipWs (pos : Nat) : pos ≤ skipWs bytes pos := Nat.le_add_right _ _

/-- A value that was read moved the position. -/
theorem value_moves {fuel depth pos pos' : Nat} {a : Ast} (hdepth : depth ≤ maxParseDepth)
    (h : value bytes fuel depth pos = .ok (a, pos')) :
    pos < pos' ∧ pos' ≤ bytes.length := by
  obtain ⟨w, hw, hstands, rfl, _⟩ := (sound bytes fuel).value hdepth h
  obtain ⟨b, rest, rfl, _⟩ := value_first hw
  have hbound := hstands.lt (List.cons_ne_nil b rest)
  rw [List.length_cons] at hbound ⊢
  exact ⟨by omega, by omega⟩

theorem value_total {fuel depth pos : Nat} (ih : Total bytes fuel)
    (hfuel : 3 * (bytes.length - pos) + 3 ≤ fuel + 1) : Proper (value bytes (fuel + 1) depth pos) := by
  have htooDeep : Proper (.error tooDeep : Except Stop (Ast × Nat)) := fun _ h => by
    cases h
    exact ⟨_, rfl⟩
  rw [value]
  split
  · exact proper_malformed _
  rename_i b hb
  have hpos := (List.getElem?_eq_some_iff.1 hb).1
  have hliteral : ∀ word ast, Proper (literal bytes word ast pos) := fun word ast => by
    unfold literal
    rw [if_neg (by omega)]
    split
    · exact proper_ok _
    · exact proper_malformed _
  split
  · split
    · exact htooDeep
    · exact ih.object (by omega) hpos (by omega)
  split
  · split
    · exact htooDeep
    · exact ih.array (by omega) hpos (by omega)
  split
  · exact (string_proper pos).map _
  split
  · exact hliteral _ _
  split
  · exact hliteral _ _
  split
  · exact hliteral _ _
  split
  · exact number_proper hpos
  · exact proper_malformed _

theorem arrayLoop_total {fuel depth pos : Nat} {items : List Ast} (ih : Total bytes fuel)
    (hdepth : depth ≤ maxParseDepth)
    (hfuel : 3 * (bytes.length - pos) + 4 ≤ fuel + 1) : Proper (arrayLoop bytes (fuel + 1) depth items pos) := by
  have hskip := @le_skipWs bytes pos
  rw [arrayLoop]
  refine Proper.bind (ih.value (by omega)) fun r hr => ?_
  obtain ⟨hmoves, hle⟩ := value_moves hdepth hr
  have hskip' := @le_skipWs bytes r.2
  dsimp only
  split
  · exact ih.arrayLoop hdepth (by omega)
  split
  · exact proper_ok _
  · exact proper_malformed _

theorem objectLoop_total {fuel depth pos : Nat} {fields : List (Text × Ast)} (ih : Total bytes fuel)
    (hdepth : depth ≤ maxParseDepth)
    (hfuel : 3 * (bytes.length - pos) + 4 ≤ fuel + 1) : Proper (objectLoop bytes (fuel + 1) depth fields pos) := by
  have hskip := @le_skipWs bytes pos
  rw [objectLoop]
  split
  · exact proper_malformed _
  rename_i hquote
  refine Proper.bind (string_proper _) fun r hk => ?_
  obtain ⟨key, p⟩ := r
  obtain ⟨w, _, _, hnext⟩ := string_spec (not_not.1 hquote) hk
  have hskip' := @le_skipWs bytes p
  have hskip₂ := @le_skipWs bytes (skipWs bytes p + 1)
  dsimp only
  split
  · exact proper_malformed _
  refine Proper.bind (ih.value (by omega)) fun r hr => ?_
  obtain ⟨v, p'⟩ := r
  obtain ⟨hmoves, hle⟩ := value_moves hdepth hr
  have hskip₃ := @le_skipWs bytes p'
  dsimp only
  split
  · exact ih.objectLoop hdepth (by omega)
  split
  · exact proper_ok _
  · exact proper_malformed _

theorem array_total {fuel depth pos : Nat} (ih : Total bytes fuel) (hdepth : depth ≤ maxParseDepth)
    (hpos : pos < bytes.length)
    (hfuel : 3 * (bytes.length - pos) + 2 ≤ fuel + 1) : Proper (array bytes (fuel + 1) depth pos) := by
  have hskip := @le_skipWs bytes (pos + 1)
  rw [array]
  split
  · exact proper_ok _
  · exact ih.arrayLoop hdepth (by omega)

theorem object_total {fuel depth pos : Nat} (ih : Total bytes fuel) (hdepth : depth ≤ maxParseDepth)
    (hpos : pos < bytes.length)
    (hfuel : 3 * (bytes.length - pos) + 2 ≤ fuel + 1) : Proper (object bytes (fuel + 1) depth pos) := by
  have hskip := @le_skipWs bytes (pos + 1)
  rw [object]
  split
  · exact proper_ok _
  · exact ih.objectLoop hdepth (by omega)

theorem total (bytes : List Byte) : ∀ fuel, Total bytes fuel
  | 0 => ⟨fun h => absurd h (by omega), fun _ _ h => absurd h (by omega), fun _ h => absurd h (by omega),
      fun _ _ h => absurd h (by omega), fun _ h => absurd h (by omega)⟩
  | fuel + 1 =>
    ⟨value_total (total bytes fuel), object_total (total bytes fuel), objectLoop_total (total bytes fuel),
      array_total (total bytes fuel), arrayLoop_total (total bytes fuel)⟩

/-- **No text makes the parser panic or run out of fuel.** -/
theorem parse_proper (text : List Byte) : Proper (parse text) := by
  refine Proper.bind ((total text _).value (by omega)) fun r _ => ?_
  split
  split
  · exact proper_malformed _
  · exact proper_ok _

/-! ### The whole text -/

theorem stands_all (text : List Byte) : Stands text 0 text := List.prefix_rfl

/-- **The parser accepts exactly JSON** that is nested at most 1024 deep, and returns what the grammar derives. -/
theorem parse_iff (text : List Byte) (a : Ast) : parse text = .ok a ↔ JsonText a text ∧ a.depth ≤ maxParseDepth := by
  constructor
  · intro h
    obtain ⟨u, hu, hstandsU, hskip, _⟩ := skipWs_spec text 0
    rw [Nat.zero_add] at hskip
    rw [parse, hskip] at h
    obtain ⟨⟨v, p⟩, hvalue, h⟩ := bind_ok h
    obtain ⟨w, hw, hstandsW, rfl, hle⟩ := (sound text _).value (Nat.zero_le _) hvalue
    obtain ⟨x, hx, hstandsX, hskip', _⟩ := skipWs_spec text (u.length + w.length)
    dsimp only at h
    rw [hskip'] at h
    split at h
    · cases h
    rename_i hend
    cases h
    refine ⟨⟨u, w, x, hu, hw, hx, ?_⟩, by omega⟩
    have hstands : Stands text 0 (u ++ w ++ x) := by
      rw [stands_append, stands_append, Nat.zero_add, Nat.zero_add, List.length_append]
      exact ⟨⟨hstandsU, hstandsW⟩, hstandsX⟩
    refine (List.IsPrefix.eq_of_length hstands ?_).symm
    simp only [List.length_append, List.drop_zero]
    omega
  · rintro ⟨⟨u, w, v, hu, hw, hv, rfl⟩, hdepth⟩
    have hstands := stands_all (u ++ w ++ v)
    obtain ⟨b, rest, hb, hnws, _⟩ := value_first hw
    obtain ⟨⟨hstandsU, hstandsW⟩, hstandsV⟩ := stands_append.1 hstands |>.imp_left stands_append.1
    rw [Nat.zero_add] at hstandsW hstandsV
    have hskip : skipWs (u ++ w ++ v) 0 = u.length := by
      rw [hb, List.append_assoc, List.cons_append] at hstands ⊢
      rw [skipWs_stands hu hstands hnws, Nat.zero_add]
    have hlen : (u ++ w ++ v).length = u.length + w.length + v.length := by simp only [List.length_append]
    rw [List.length_append] at hstandsV
    have hpast : (u ++ w ++ v)[u.length + w.length + v.length]? = none := List.getElem?_eq_none (Nat.le_of_eq hlen)
    have hskip' := skipWs_eq hv hstandsV fun c hc => by
      rw [hpast] at hc
      cases hc
    have hends : Ends (u ++ w ++ v) (u.length + w.length) := by
      intro c hc
      cases v with
      | nil =>
        rw [List.length_nil, Nat.add_zero] at hpast
        rw [hpast] at hc
        cases hc
      | cons x v =>
        rw [(stands_cons.1 hstandsV).1] at hc
        cases hc
        exact .inl (hv c List.mem_cons_self)
    have hvalue : value (u ++ w ++ v) (3 * (u ++ w ++ v).length + 3) 0 u.length = .ok (a, u.length + w.length) :=
      derives_reads hw hstandsW hends (by omega) (by omega)
    simp only [parse, hskip, hvalue, bind, Except.bind, hskip']
    exact if_neg (by omega)

end JsonParser
end MaskForge
