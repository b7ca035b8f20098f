import MaskForge.Frontend.JsonRead
/-!
# JsonSound — the schema parser reads only JSON

What the parser returns is derived from the bytes it passed, and is not nested deeper than it may be.
-/
namespace MaskForge
namespace JsonParser

open Decimal (IsDigit)

variable {bytes : List Byte}

theorem Whitespace.append {u v : List Byte} (hu : Whitespace u) (hv : Whitespace v) : Whitespace (u ++ v) := fun b hb =>
  (List.mem_append.1 hb).elim (hu b) (hv b)

/-- More white space in front of the items changes nothing. -/
theorem derives_items_ws {u w : List Byte} {as : List Ast} (hu : Whitespace u) (h : Derives (.items as) w) :
    Derives (.items as) (u ++ w) := by
  cases h with
  | @item u' v w a hu' h hw =>
    have hd := Derives.item (Whitespace.append hu hu') h hw
    simpa only [List.append_assoc] using hd
  | @items u' v w rest a as hu' h hw more =>
    have hd := Derives.items (Whitespace.append hu hu') h hw more
    simpa only [List.append_assoc] using hd

theorem derives_members_ws {u w : List Byte} {ms : List (Text × Ast)} (hu : Whitespace u)
    (h : Derives (.members ms) w) :
    Derives (.members ms) (u ++ w) := by
  cases h with
  | @member u' k u₂ w v w' key a hu' quoted hu₂ hw h hw' =>
    have hd := Derives.member (Whitespace.append hu hu') quoted hu₂ hw h hw'
    simpa only [List.append_assoc] using hd
  | @members u' k u₂ w v w' rest key a ms hu' quoted hu₂ hw h hw' more =>
    have hd := Derives.members (Whitespace.append hu hu') quoted hu₂ hw h hw' more
    simpa only [List.append_assoc] using hd

/-- What the functions of the parser read with some fuel, at a depth that is allowed. -/
structure Sound (bytes : List Byte) (fuel : Nat) : Prop where
  value : ∀ {depth pos pos' : Nat} {a : Ast}, depth ≤ maxParseDepth → value bytes fuel depth pos = .ok (a, pos') →
    ∃ w, Derives (.value a) w ∧ Stands bytes pos w ∧ pos' = pos + w.length ∧ depth + a.depth ≤ maxParseDepth
  object : ∀ {depth pos pos' : Nat} {a : Ast}, depth ≤ maxParseDepth → bytes[pos]? = some 0x7b →
  object bytes fuel depth pos = .ok (a, pos') →
    ∃ w, Derives (.value a) w ∧ Stands bytes pos w ∧ pos' = pos + w.length ∧ depth + a.depth ≤ maxParseDepth + 1
  objectLoop : ∀ {depth pos pos' : Nat} {fields : List (Text × Ast)} {a : Ast}, depth ≤ maxParseDepth →
    objectLoop bytes fuel depth fields pos = .ok (a, pos') → ∃ ms w, a = .obj (fields ++ ms) ∧ Derives (.members ms) w ∧
      Stands bytes pos (w ++ [0x7d]) ∧ pos' = pos + w.length + 1 ∧ depth + Ast.depthFields ms ≤ maxParseDepth
  array : ∀ {depth pos pos' : Nat} {a : Ast}, depth ≤ maxParseDepth → bytes[pos]? = some 0x5b →
  array bytes fuel depth pos = .ok (a, pos') →
    ∃ w, Derives (.value a) w ∧ Stands bytes pos w ∧ pos' = pos + w.length ∧ depth + a.depth ≤ maxParseDepth + 1
  arrayLoop : ∀ {depth pos pos' : Nat} {items : List Ast} {a : Ast}, depth ≤ maxParseDepth →
    arrayLoop bytes fuel depth items pos = .ok (a, pos') → ∃ as w, a = .arr (items ++ as) ∧ Derives (.items as) w ∧
      Stands bytes pos (w ++ [0x5d]) ∧ pos' = pos + w.length + 1 ∧ depth + Ast.depthItems as ≤ maxParseDepth

theorem literal_spec {word : List Byte} {ast a : Ast} {pos pos' : Nat}
    (h : literal bytes word ast pos = .ok (a, pos')) :
    a = ast ∧ Stands bytes pos word ∧ pos' = pos + word.length := by
  unfold literal at h
  split at h
  · cases h
  · split at h
    · rename_i hprefix
      cases h
      exact ⟨rfl, List.isPrefixOf_iff_prefix.1 hprefix, rfl⟩
    · cases h

theorem value_sound {fuel : Nat} (ih : Sound bytes fuel) {depth pos pos' : Nat} {a : Ast}
    (hdepth : depth ≤ maxParseDepth) (h : value bytes (fuel + 1) depth pos = .ok (a, pos')) :
    ∃ w, Derives (.value a) w ∧ Stands bytes pos w ∧ pos' = pos + w.length ∧ depth + a.depth ≤ maxParseDepth := by
  rw [value] at h
  split at h
  · cases h
  rename_i b hb
  split at h
  · rename_i hopen
    split at h
    · cases h
    obtain ⟨w, hd, hstands, rfl, hle⟩ := ih.object (by omega) (hopen ▸ hb) h
    exact ⟨w, hd, hstands, rfl, by omega⟩
  split at h
  · rename_i hopen
    split at h
    · cases h
    obtain ⟨w, hd, hstands, rfl, hle⟩ := ih.array (by omega) (hopen ▸ hb) h
    exact ⟨w, hd, hstands, rfl, by omega⟩
  split at h
  · rename_i hquote
    cases hs : string bytes pos with
    | error e =>
      rw [hs] at h
      cases h
    | ok r =>
      rw [hs] at h
      cases h
      obtain ⟨w, hquoted, hstands, hpos⟩ := string_spec (hquote ▸ hb) hs
      exact ⟨w, .str hquoted, hstands, hpos, hdepth⟩
  split at h
  · obtain ⟨rfl, hstands, rfl⟩ := literal_spec h
    exact ⟨_, .bool_true, hstands, rfl, hdepth⟩
  split at h
  · obtain ⟨rfl, hstands, rfl⟩ := literal_spec h
    exact ⟨_, .bool_false, hstands, rfl, hdepth⟩
  split at h
  · obtain ⟨rfl, hstands, rfl⟩ := literal_spec h
    exact ⟨_, .null, hstands, rfl, hdepth⟩
  split at h
  · obtain ⟨t, ht, rfl, hstands, rfl⟩ := number_spec h
    exact ⟨_, .num t ht, hstands, rfl, hdepth⟩
  · cases h

theorem arrayLoop_sound {fuel : Nat} (ih : Sound bytes fuel) {depth pos pos' : Nat} {items : List Ast} {a : Ast}
    (hdepth : depth ≤ maxParseDepth) (h : arrayLoop bytes (fuel + 1) depth items pos = .ok (a, pos')) :
    ∃ as w, a = .arr (items ++ as) ∧ Derives (.items as) w ∧ Stands bytes pos (w ++ [0x5d]) ∧
    pos' = pos + w.length + 1 ∧
      depth + Ast.depthItems as ≤ maxParseDepth := by
  obtain ⟨u, hu, hstandsU, hskip, _⟩ := skipWs_spec bytes pos
  rw [arrayLoop, hskip] at h
  obtain ⟨⟨v, p⟩, hvalue, h⟩ := bind_ok h
  obtain ⟨x, hx, hstandsX, rfl, hle⟩ := ih.value hdepth hvalue
  obtain ⟨w, hw, hstandsW, hskip', _⟩ := skipWs_spec bytes (pos + u.length + x.length)
  dsimp only at h
  rw [hskip'] at h
  have hitem : Stands bytes pos (u ++ x ++ w) := by
    rw [stands_append, stands_append, List.length_append, ← Nat.add_assoc]
    exact ⟨⟨hstandsU, hstandsX⟩, hstandsW⟩
  have hlen : pos + u.length + x.length + w.length = pos + (u ++ x ++ w).length := by
    simp only [List.length_append]
    omega
  rw [hlen] at h
  split at h
  · rename_i hcomma
    obtain ⟨as, rest, rfl, hmore, hstands, rfl, hle'⟩ := ih.arrayLoop hdepth h
    refine ⟨v :: as, _, by rw [List.append_assoc]; rfl, .items hu hx hw hmore, ?_, ?_, ?_⟩
    · rw [List.append_assoc, stands_append, List.cons_append, stands_cons]
      exact ⟨hitem, hcomma, hstands⟩
    · have hsum : (u ++ x ++ w ++ 0x2c :: rest).length = (u ++ x ++ w).length + (rest.length + 1) := List.length_append
      omega
    · rw [Ast.depthItems]
      omega
  · split at h
    · rename_i hclose
      cases h
      refine ⟨[v], _, rfl, .item hu hx hw, stands_append.2 ⟨hitem, stands_cons.2 ⟨hclose, stands_nil _⟩⟩, rfl, ?_⟩
      rw [Ast.depthItems, Ast.depthItems]
      omega
    · cases h

theorem array_sound {fuel : Nat} (ih : Sound bytes fuel) {depth pos pos' : Nat} {a : Ast}
    (hdepth : depth ≤ maxParseDepth)
    (hb : bytes[pos]? = some 0x5b) (h : array bytes (fuel + 1) depth pos = .ok (a, pos')) :
    ∃ w, Derives (.value a) w ∧ Stands bytes pos w ∧ pos' = pos + w.length ∧ depth + a.depth ≤ maxParseDepth + 1 := by
  obtain ⟨u, hu, hstandsU, hskip, _⟩ := skipWs_spec bytes (pos + 1)
  rw [array, hskip] at h
  split at h
  · rename_i hclose
    cases h
    refine ⟨_, .arr_nil hu, stands_cons.2 ⟨hb, stands_append.2 ⟨hstandsU, stands_cons.2 ⟨hclose, stands_nil _⟩⟩⟩,
      ?_, ?_⟩
    · rw [List.length_append, List.length_cons, List.length_singleton]
      omega
    · rw [Ast.depth, Ast.depthItems]
      omega
  · obtain ⟨as, w, rfl, hitems, hstands, rfl, hle⟩ := ih.arrayLoop hdepth h
    rw [List.nil_append]
    refine ⟨_, .arr (derives_items_ws hu hitems), ?_, ?_, ?_⟩
    · rw [List.cons_append, stands_cons, List.append_assoc, stands_append]
      exact ⟨hb, hstandsU, hstands⟩
    · rw [List.length_append, List.length_cons, List.length_append, List.length_singleton]
      omega
    · rw [Ast.depth]
      omega

theorem objectLoop_sound {fuel : Nat} (ih : Sound bytes fuel) {depth pos pos' : Nat} {fields : List (Text × Ast)}
    {a : Ast} (hdepth : depth ≤ maxParseDepth) (h : objectLoop bytes (fuel + 1) depth fields pos = .ok (a, pos')) :
    ∃ ms w, a = .obj (fields ++ ms) ∧ Derives (.members ms) w ∧ Stands bytes pos (w ++ [0x7d]) ∧
    pos' = pos + w.length + 1 ∧
      depth + Ast.depthFields ms ≤ maxParseDepth := by
  obtain ⟨u, hu, hstandsU, hskip, _⟩ := skipWs_spec bytes pos
  rw [objectLoop, hskip] at h
  split at h
  · cases h
  rename_i hquote
  obtain ⟨⟨key, p⟩, hkey, h⟩ := bind_ok h
  obtain ⟨k, hk, hstandsK, rfl⟩ := string_spec (not_not.1 hquote) hkey
  obtain ⟨u', hu', hstandsU', hskip', _⟩ := skipWs_spec bytes (pos + u.length + k.length)
  dsimp only at h
  rw [hskip'] at h
  split at h
  · cases h
  rename_i hcolon
  obtain ⟨w, hw, hstandsW, hskip₂, _⟩ := skipWs_spec bytes (pos + u.length + k.length + u'.length + 1)
  rw [hskip₂] at h
  obtain ⟨⟨v, p⟩, hvalue, h⟩ := bind_ok h
  obtain ⟨x, hx, hstandsX, rfl, hle⟩ := ih.value hdepth hvalue
  obtain ⟨w', hw', hstandsW', hskip₃, _⟩ := skipWs_spec bytes
    (pos + u.length + k.length + u'.length + 1 + w.length + x.length)
  dsimp only at h
  rw [hskip₃] at h
  have hmember : Stands bytes pos (u ++ k ++ u' ++ 0x3a :: (w ++ x ++ w')) := by
    rw [stands_append, stands_append, stands_append, stands_cons, stands_append, stands_append]
    simp only [List.length_append, ← Nat.add_assoc]
    exact ⟨⟨⟨hstandsU, hstandsK⟩, hstandsU'⟩, not_not.1 hcolon, ⟨hstandsW, hstandsX⟩, hstandsW'⟩
  have hlen : pos + u.length + k.length + u'.length + 1 + w.length + x.length + w'.length =
      pos + (u ++ k ++ u' ++ 0x3a :: (w ++ x ++ w')).length := by
    simp only [List.length_append, List.length_cons]
    omega
  rw [hlen] at h
  split at h
  · rename_i hcomma
    obtain ⟨ms, rest, rfl, hmore, hstands, rfl, hle'⟩ := ih.objectLoop hdepth h
    refine ⟨(key, v) :: ms, _, by rw [List.append_assoc]; rfl, .members hu hk hu' hw hx hw' hmore, ?_, ?_, ?_⟩
    · rw [List.append_assoc, stands_append, List.cons_append, stands_cons]
      exact ⟨hmember, hcomma, hstands⟩
    · have hsum : (u ++ k ++ u' ++ 0x3a :: (w ++ x ++ w') ++ 0x2c :: rest).length =
          (u ++ k ++ u' ++ 0x3a :: (w ++ x ++ w')).length + (rest.length + 1) := List.length_append
      omega
    · rw [Ast.depthFields]
      omega
  · split at h
    · rename_i hclose
      cases h
      refine ⟨[(key, v)], _, rfl, .member hu hk hu' hw hx hw', stands_append.2
        ⟨hmember, stands_cons.2 ⟨hclose, stands_nil _⟩⟩, rfl, ?_⟩
      rw [Ast.depthFields, Ast.depthFields]
      omega
    · cases h

theorem object_sound {fuel : Nat} (ih : Sound bytes fuel) {depth pos pos' : Nat} {a : Ast}
    (hdepth : depth ≤ maxParseDepth)
    (hb : bytes[pos]? = some 0x7b) (h : object bytes (fuel + 1) depth pos = .ok (a, pos')) :
    ∃ w, Derives (.value a) w ∧ Stands bytes pos w ∧ pos' = pos + w.length ∧ depth + a.depth ≤ maxParseDepth + 1 := by
  obtain ⟨u, hu, hstandsU, hskip, _⟩ := skipWs_spec bytes (pos + 1)
  rw [object, hskip] at h
  split at h
  · rename_i hclose
    cases h
    refine ⟨_, .obj_nil hu, stands_cons.2 ⟨hb, stands_append.2 ⟨hstandsU, stands_cons.2 ⟨hclose, stands_nil _⟩⟩⟩,
      ?_, ?_⟩
    · rw [List.length_append, List.length_cons, List.length_singleton]
      omega
    · rw [Ast.depth, Ast.depthFields]
      omega
  · obtain ⟨ms, w, rfl, hmembers, hstands, rfl, hle⟩ := ih.objectLoop hdepth h
    rw [List.nil_append]
    refine ⟨_, .obj (derives_members_ws hu hmembers), ?_, ?_, ?_⟩
    · rw [List.cons_append, stands_cons, List.append_assoc, stands_append]
      exact ⟨hb, hstandsU, hstands⟩
    · rw [List.length_append, List.length_cons, List.length_append, List.length_singleton]
      omega
    · rw [Ast.depth]
      omega

/-- **Whatever the fuel, what is read is derived from the bytes that were passed.** -/
theorem sound (bytes : List Byte) : ∀ fuel, Sound bytes fuel
  | 0 => by
    constructor
    · intro _ _ _ _ _ h
      rw [value] at h
      cases h
    · intro _ _ _ _ _ _ h
      rw [object] at h
      cases h
    · intro _ _ _ _ _ _ h
      rw [objectLoop] at h
      cases h
    · intro _ _ _ _ _ _ h
      rw [array] at h
      cases h
    · intro _ _ _ _ _ _ h
      rw [arrayLoop] at h
      cases h
  | fuel + 1 =>
    ⟨value_sound (sound bytes fuel), object_sound (sound bytes fuel), objectLoop_sound (sound bytes fuel),
      array_sound (sound bytes fuel), arrayLoop_sound (sound bytes fuel)⟩

end JsonParser
end MaskForge
