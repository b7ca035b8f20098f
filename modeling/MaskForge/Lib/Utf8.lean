import MaskForge.Primitives
/-!
# Utf8 — text and its bytes

The encoding of a text is read back by `str::from_utf8`, and no character's bytes begin another's: a text's bytes begin
another's only if the text does.
-/
namespace MaskForge

/-- `str::from_utf8`, as the characters of the text. -/
def strFromUtf8 (bytes : List Byte) : Option (List Char) := bytes.toByteArray.utf8Decode?.map Array.toList

/-- **`str::from_utf8` inverts the encoding.** -/
theorem strFromUtf8_iff (bytes : List Byte) (text : List Char) :
    strFromUtf8 bytes = some text ↔ bytes = text.flatMap String.utf8EncodeChar := by
  have hinj : ∀ {a b : List Byte}, a.toByteArray = b.toByteArray → a = b := fun h => by
    simpa [List.toList_data_toByteArray] using congrArg (fun bytes => bytes.data.toList) h
  unfold strFromUtf8
  constructor
  · intro h
    obtain ⟨chars, hchars, rfl⟩ := Option.map_eq_some_iff.1 h
    have hsome : bytes.toByteArray.utf8Decode?.isSome := by rw [hchars]; rfl
    have hencode := ByteArray.utf8Encode_get_utf8Decode? (h := hsome)
    simp only [hchars, Option.get_some] at hencode
    exact (hinj hencode).symm
  · rintro rfl
    have hdecode := List.utf8Decode?_utf8Encode (l := text)
    unfold List.utf8Encode at hdecode
    rw [hdecode]
    rfl

theorem utf8Encode_ne_nil (c : Char) : String.utf8EncodeChar c ≠ [] := by
  intro h
  have := congrArg List.length h
  simp [String.length_utf8EncodeChar] at this
  have := c.utf8Size_pos
  omega

/-- **The bytes of a character end where it does.** -/
theorem utf8Encode_append_inj {c c' : Char} {x y : List Byte}
    (h : String.utf8EncodeChar c ++ x = String.utf8EncodeChar c' ++ y) :
    c = c' := by
  have hdecode : ∀ (c : Char) (x : List Byte),
      ByteArray.utf8DecodeChar? (String.utf8EncodeChar c ++ x).toByteArray 0 = some c := by
    intro c x
    rw [List.toByteArray_append]
    exact ByteArray.utf8DecodeChar?_utf8EncodeChar_append
  have hc := hdecode c x
  rw [h, hdecode c' y] at hc
  exact (Option.some.inj hc).symm

theorem utf8_isPrefix :
    ∀ {a b : List Char}, a.flatMap String.utf8EncodeChar <+: b.flatMap String.utf8EncodeChar → a <+: b
  | [], b, _ => List.nil_prefix
  | c :: a, [], h => by
    rw [List.flatMap_cons, List.flatMap_nil, List.prefix_nil] at h
    exact absurd (List.append_eq_nil_iff.1 h).1 (utf8Encode_ne_nil c)
  | c :: a, c' :: b, h => by
    obtain ⟨rest, hrest⟩ := h
    rw [List.flatMap_cons, List.flatMap_cons, List.append_assoc] at hrest
    have hc := utf8Encode_append_inj hrest
    subst hc
    rw [List.prefix_cons_inj]
    exact utf8_isPrefix ⟨rest, List.append_cancel_left hrest⟩

end MaskForge
