import LiquidTemplate.Proofs.Text.Slice

/-!
# The bytes of a text

Some characters are looked for among the bytes of a template. They are ASCII characters, and the
bytes of all other characters are 128 and more (`le_of_mem_utf8EncodeChar`), so such a byte is found
exactly where its character starts (`getElem?_utf8_append`).
-/

namespace LiquidTemplate.Text

/-- The UTF-8 form. -/
def utf8 (t : Text) : List UInt8 := t.flatMap String.utf8EncodeChar

theorem utf8_cons (c : Char) (t : Text) : utf8 (c :: t) = String.utf8EncodeChar c ++ utf8 t := rfl

theorem utf8_append (s t : Text) : utf8 (s ++ t) = utf8 s ++ utf8 t := List.flatMap_append

theorem length_utf8 (t : Text) : (utf8 t).length = size t := by
  induction t with
  | nil => rfl
  | cons c t ih => rw [utf8_cons, List.length_append, String.length_utf8EncodeChar, ih, size_cons]

/-- The bytes of a character that takes more than one. -/
theorem le_of_mem_utf8EncodeChar {c : Char} (hc : c.utf8Size ≠ 1) :
    ∀ b ∈ String.utf8EncodeChar c, 128 ≤ b := by
  -- each byte has been given its leading bits, which alone make 128
  have hor : ∀ x y : UInt8, 128 ≤ y → 128 ≤ x ||| y := fun x y hy => by
    rw [UInt8.le_iff_toNat_le] at hy ⊢
    rw [UInt8.toNat_or]
    exact Nat.le_trans hy Nat.right_le_or
  rcases c.utf8Size_eq with h | h | h | h
  · exact absurd h hc
  · rw [String.utf8EncodeChar_eq_cons_cons h]
    intro b hb
    simp only [List.mem_cons, List.not_mem_nil, or_false] at hb
    rcases hb with rfl | rfl <;> exact hor _ _ (by decide)
  · rw [String.utf8EncodeChar_eq_cons_cons_cons h]
    intro b hb
    simp only [List.mem_cons, List.not_mem_nil, or_false] at hb
    rcases hb with rfl | rfl | rfl <;> exact hor _ _ (by decide)
  · rw [String.utf8EncodeChar_eq_cons_cons_cons_cons h]
    intro b hb
    simp only [List.mem_cons, List.not_mem_nil, or_false] at hb
    rcases hb with rfl | rfl | rfl | rfl <;> exact hor _ _ (by decide)

theorem toUInt8_inj {a c : Char} (ha : a.utf8Size = 1) (hc : c.utf8Size = 1)
    (h : a.toUInt8 = c.toUInt8) : a = c := by
  rw [Char.utf8Size_eq_one_iff, UInt32.le_iff_toNat_le] at ha hc
  have hn := congrArg UInt8.toNat h
  simp only [Char.toUInt8, UInt32.toNat_toUInt8] at hn
  have h127 : (127 : UInt32).toNat = 127 := rfl
  exact Char.ext (UInt32.toNat_inj.1 (by omega))

theorem toUInt8_lt {a : Char} (ha : a.utf8Size = 1) : a.toUInt8 < 128 := by
  rw [Char.utf8Size_eq_one_iff, UInt32.le_iff_toNat_le] at ha
  rw [UInt8.lt_iff_toNat_lt]
  simp only [Char.toUInt8, UInt32.toNat_toUInt8]
  have h127 : (127 : UInt32).toNat = 127 := rfl
  have h128 : (128 : UInt8).toNat = 128 := rfl
  omega

/-- The byte of an ASCII character stands in another character nowhere. -/
theorem toUInt8_mem_utf8EncodeChar {a c : Char} (ha : a.utf8Size = 1)
    (h : a.toUInt8 ∈ String.utf8EncodeChar c) : a = c := by
  by_cases hc : c.utf8Size = 1
  · rw [String.utf8EncodeChar_eq_singleton hc, List.mem_singleton] at h
    exact toUInt8_inj ha hc h
  · have hle := le_of_mem_utf8EncodeChar hc _ h
    have hlt := toUInt8_lt ha
    rw [UInt8.le_iff_toNat_le] at hle
    rw [UInt8.lt_iff_toNat_lt] at hlt
    omega

/-- The bytes of a character are found behind `before`. -/
theorem getElem?_utf8_of_lt {c : Char} (before rest : Text) {k : Nat} (hk : k < c.utf8Size) :
    ∃ b ∈ String.utf8EncodeChar c, (utf8 (before ++ c :: rest))[size before + k]? = some b := by
  rw [← String.length_utf8EncodeChar] at hk
  refine ⟨(String.utf8EncodeChar c)[k], List.getElem_mem hk, ?_⟩
  rw [utf8_append, ← length_utf8, List.getElem?_append_right (Nat.le_add_right _ _),
    Nat.add_sub_cancel_left, utf8_cons, List.getElem?_append_left hk, List.getElem?_eq_getElem hk]

/-- The byte of an ASCII character is found behind `before` if and only if the character is. -/
theorem getElem?_utf8_append {a : Char} (ha : a.utf8Size = 1) (before t : Text) :
    (utf8 (before ++ t))[size before]? = some a.toUInt8 ↔ t.head? = some a := by
  cases t with
  | nil =>
    rw [List.append_nil, List.getElem?_eq_none (Nat.le_of_eq (length_utf8 before))]
    simp
  | cons c t =>
    obtain ⟨b, hb, hbyte⟩ := getElem?_utf8_of_lt before t c.utf8Size_pos
    rw [Nat.add_zero] at hbyte
    rw [hbyte]
    constructor
    · intro h
      rw [Option.some.inj h] at hb
      rw [toUInt8_mem_utf8EncodeChar ha hb, List.head?_cons]
    · intro h
      obtain rfl := Option.some.inj h
      rw [String.utf8EncodeChar_eq_singleton ha, List.mem_singleton] at hb
      rw [hb]
      rfl

end LiquidTemplate.Text
