import LiquidTemplate.Json

/-!
# The text of a JSON value

`Json.chars` gives the text of a value from the texts of its parts, without an accumulator. The
writer puts the same text behind what is written so far (`Json.render_eq`).
-/

namespace LiquidTemplate.Json

mutual

/-- The text of a value at a nesting level. -/
def chars (layout : Layout) (level : Nat) : Json → Text
  | null => "null".toList
  | bool true => "true".toList
  | bool false => "false".toList
  | number n => Nat.toDigits 10 n
  | string t => quote t
  | array [] => ['[', ']']
  | array (item :: items) =>
    '[' :: (layout.lineBreak (level + 1) ++ (chars layout (level + 1) item ++
      (charsItems layout (level + 1) items ++ (layout.lineBreak level ++ [']']))))
  | object [] => ['\x7b', '\x7d']
  | object ((name, value) :: fields) =>
    '\x7b' :: (layout.lineBreak (level + 1) ++ (quote name.toList ++ (layout.colon ++
      (chars layout (level + 1) value ++
        (charsFields layout (level + 1) fields ++ (layout.lineBreak level ++ ['\x7d']))))))

/-- The text of the items behind the first. -/
def charsItems (layout : Layout) (level : Nat) : List Json → Text
  | [] => []
  | item :: items =>
    ',' :: (layout.lineBreak level ++ (chars layout level item ++ charsItems layout level items))

/-- The text of the fields behind the first. -/
def charsFields (layout : Layout) (level : Nat) : List (String × Json) → Text
  | [] => []
  | (name, value) :: fields =>
    ',' :: (layout.lineBreak level ++ (quote name.toList ++ (layout.colon ++
      (chars layout level value ++ charsFields layout level fields))))

end

theorem isDigit_of_mem_toDigits {n : Nat} : ∀ c ∈ Nat.toDigits 10 n, c.isDigit = true :=
  fun _ hc => Nat.isDigit_of_mem_toDigits (by decide) (by decide) hc

/-- A character is written behind a backslash, or by its number, or as it is. -/
theorem escape_cases (c : Char) :
    (∃ d, escape c = ['\\', d]) ∨
      escape c = ['\\', 'u', '0', '0', hexDigit (c.toNat / 16), hexDigit c.toNat] ∨
      (escape c = [c] ∧ c ≠ '"' ∧ c ≠ '\\') := by
  unfold escape
  split
  · exact .inl ⟨_, rfl⟩
  · next hquote =>
    split
    · exact .inl ⟨_, rfl⟩
    · next hbackslash =>
      repeat' split
      all_goals first
        | exact .inl ⟨_, rfl⟩
        | exact .inr (.inl rfl)
        | exact .inr (.inr ⟨rfl, hquote, hbackslash⟩)

/-! ## In front of other text -/

section

variable {layout : Layout} {level : Nat}

theorem eq_of_mem_lineBreak {c : Char} (h : c ∈ layout.lineBreak level) : c = '\n' ∨ c = ' ' := by
  cases layout with
  | compact => cases h
  | indented => exact (List.mem_cons.1 h).imp_right List.eq_of_mem_replicate

theorem array_append {item : Json} {items : List Json} {rest : Text} :
    chars layout level (array (item :: items)) ++ rest =
      '[' :: (layout.lineBreak (level + 1) ++ (chars layout (level + 1) item ++
        (charsItems layout (level + 1) items ++ (layout.lineBreak level ++ ']' :: rest)))) := by
  simp [chars]

theorem items_append {item : Json} {items : List Json} {rest : Text} :
    charsItems layout level (item :: items) ++ rest =
      ',' :: (layout.lineBreak level ++ (chars layout level item ++
        (charsItems layout level items ++ rest))) := by
  simp [charsItems]

theorem object_append {name : String} {value : Json} {fields : List (String × Json)}
    {rest : Text} :
    chars layout level (object ((name, value) :: fields)) ++ rest =
      '\x7b' :: (layout.lineBreak (level + 1) ++ (quote name.toList ++ (layout.colon ++
        (chars layout (level + 1) value ++ (charsFields layout (level + 1) fields ++
          (layout.lineBreak level ++ '\x7d' :: rest)))))) := by
  simp [chars]

theorem fields_append {name : String} {value : Json} {fields : List (String × Json)}
    {rest : Text} :
    charsFields layout level ((name, value) :: fields) ++ rest =
      ',' :: (layout.lineBreak level ++ (quote name.toList ++ (layout.colon ++
        (chars layout level value ++ (charsFields layout level fields ++ rest))))) := by
  simp [charsFields]

end

/-! ## What is written -/

theorem emit_eq (t written : Text) : emit t written = t.reverse ++ written :=
  List.reverseAux_eq

mutual

theorem write_eq (layout : Layout) (level : Nat) : ∀ (v : Json) (written : Text),
    write layout level v written = (chars layout level v).reverse ++ written
  | null, written | bool true, written | bool false, written | number _, written
  | string _, written | array [], written | object [], written => by
    simp only [write, emit_eq, chars]
  | array (item :: items), written => by
    simp only [write, emit_eq, chars, write_eq layout (level + 1) item,
      writeItems_eq layout (level + 1) items]
    simp
  | object ((name, value) :: fields), written => by
    simp only [write, emit_eq, chars, write_eq layout (level + 1) value,
      writeFields_eq layout (level + 1) fields]
    simp

theorem writeItems_eq (layout : Layout) (level : Nat) : ∀ (vs : List Json) (written : Text),
    writeItems layout level vs written = (charsItems layout level vs).reverse ++ written
  | [], _ => rfl
  | item :: items, written => by
    simp only [writeItems, emit_eq, charsItems, write_eq layout level item,
      writeItems_eq layout level items]
    simp

theorem writeFields_eq (layout : Layout) (level : Nat) :
    ∀ (fs : List (String × Json)) (written : Text),
    writeFields layout level fs written = (charsFields layout level fs).reverse ++ written
  | [], _ => rfl
  | (name, value) :: fields, written => by
    simp only [writeFields, emit_eq, charsFields, write_eq layout level value,
      writeFields_eq layout level fields]
    simp

end

/-- What is written is the text of the value. -/
theorem render_eq (layout : Layout) (v : Json) : render layout v = chars layout 0 v := by
  rw [render, write_eq, List.append_nil, List.reverse_reverse]

end LiquidTemplate.Json
