import LiquidTemplate.Lexeme.Value

/-!
# Reading tag heads

A start tag is `<`, a name, attributes with blanks in front, and `>` or `/>`. A name is a drop or a
run of name characters; the name of an attribute is the longest run of characters that may stand in
one, and only its first character keeps Liquid markup out. Main statement: reading a head loses
nothing (`Head.append_of_read`).
-/

namespace LiquidTemplate

namespace TagName

/-- ASCII letters and digits, `-`, `_`, `.`, `:`, and everything beyond ASCII
(`is_tag_name_char`). -/
def isNameChar (c : Char) : Bool :=
  c.isAlphanum || ['-', '_', '.', ':'].contains c || 128 ≤ c.toNat

/-- Reads the name of a tag (`scan_tag_name`). -/
def read : Text → Except Flaw (TagName × Text)
  | '{' :: '{' :: rest =>
    match Delimiter.drop.finish? rest with
    | some (inner, rest') => .ok (dynamic inner, rest')
    | none => .error (.unterminated .drop)
  | t => .ok (fixed (t.takeWhile isNameChar), t.dropWhile isNameChar)

/-- Reading a name loses nothing. -/
theorem append_of_read {t rest : Text} {name : TagName} (h : read t = .ok (name, rest)) :
    t = name.chars ++ rest := by
  unfold read at h
  split at h
  · split at h
    · next hf =>
      cases h
      simp [chars, Delimiter.enclose, Delimiter.opening, Delimiter.append_of_finish? hf]
    · cases h
  · cases h
    exact List.takeWhile_append_dropWhile.symm

end TagName

namespace Attribute

/-- Everything but blanks, quotes, `>`, `/` and `=` (`is_attr_name_char`). -/
def isNameChar (c : Char) : Bool :=
  !(Text.isBlank c || ['"', '\'', '>', '/', '='].contains c)

/-- Reads an attribute at its name (`scan_attribute`); `gap` is the blanks in front. Without an
equals sign behind it the blanks behind the name are left for what follows. -/
def read (gap t : Text) : Except Flaw (Attribute × Text) :=
  let name := t.takeWhile isNameChar
  let rest := t.dropWhile isNameChar
  match Text.trimStart rest with
  | '=' :: rest' =>
    match Value.read (Text.trimStart rest') with
    | .ok (value, rest'') =>
      .ok (⟨gap, name, some ⟨Text.leadingBlanks rest, Text.leadingBlanks rest', value⟩⟩, rest'')
    | .error flaw => .error flaw
  | _ => .ok (⟨gap, name, none⟩, rest)

theorem eq_of_read {gap t rest : Text} {a : Attribute} (h : read gap t = .ok (a, rest)) :
    a.gap = gap ∧ a.name = t.takeWhile isNameChar ∧ t = a.body ++ rest := by
  simp only [read] at h
  split at h
  · next rest' hrest =>
    split at h
    · next value rest'' hv =>
      cases h
      refine ⟨rfl, rfl, ?_⟩
      simp only [body, assigned, Assignment.chars, List.append_assoc]
      rw [← Value.append_of_read hv, Text.leadingBlanks_append_trimStart, List.singleton_append,
        ← hrest, Text.leadingBlanks_append_trimStart, List.takeWhile_append_dropWhile]
    · cases h
  · cases h
    exact ⟨rfl, rfl, by simp [body, assigned, List.takeWhile_append_dropWhile]⟩

/-- Reading an attribute loses nothing. -/
theorem append_of_read {gap t rest : Text} {a : Attribute} (h : read gap t = .ok (a, rest)) :
    gap ++ t = a.chars ++ rest := by
  obtain ⟨hg, _, ht⟩ := eq_of_read h
  rw [chars, hg, List.append_assoc, ← ht]

theorem length_lt_of_read {gap rest rest' : Text} {c : Char} {a : Attribute}
    (hc : isNameChar c = true) (h : read gap (c :: rest) = .ok (a, rest')) :
    rest'.length < (c :: rest).length := by
  obtain ⟨_, hn, ht⟩ := eq_of_read h
  rw [ht, body, hn, List.takeWhile_cons, if_pos hc]
  simp
  omega

end Attribute

namespace Head

/-- Reads attributes up to the end of the tag, as the loop of `scan_tag_head` does. Those read so
far are kept in reverse. -/
def readOnto (name : TagName) (found : List Attribute) (t : Text) : Except Flaw (Head × Text) :=
  let gap := Text.leadingBlanks t
  match _ht : Text.trimStart t with
  | [] => .error (.head .unterminatedTag)
  | '>' :: rest => .ok (⟨name, found.reverse, gap, false⟩, rest)
  | '/' :: '>' :: rest => .ok (⟨name, found.reverse, gap, true⟩, rest)
  | '{' :: '{' :: _ => .error (.head .liquidAsAttributeName)
  | '{' :: '%' :: _ => .error (.head .liquidAsAttributeName)
  | c :: rest =>
    if _hc : Attribute.isNameChar c then
      match _ha : Attribute.read gap (c :: rest) with
      | .ok (a, rest') => readOnto name (a :: found) rest'
      | .error flaw => .error flaw
    else .error (.head .unexpectedCharacter)
termination_by t.length
decreasing_by
  have h₁ := Attribute.length_lt_of_read _hc _ha
  have h₂ := Text.length_trimStart_le t
  rw [_ht] at h₂
  omega

/-- Reads a start tag behind its `<` (`scan_tag_head`). -/
def read (t : Text) : Except Flaw (Head × Text) :=
  match TagName.read t with
  | .ok (name, rest) => readOnto name [] rest
  | .error flaw => .error flaw

theorem append_of_readOnto {name : TagName} {found : List Attribute} {t rest : Text} {head : Head}
    (h : readOnto name found t = .ok (head, rest)) :
    name.chars ++ found.reverse.flatMap Attribute.chars ++ t = head.tail ++ rest := by
  fun_induction readOnto name found t with
  | case1 => cases h
  | case2 found t gap rest' ht =>
    cases h
    rw [← Text.leadingBlanks_append_trimStart t, ht]
    simp [tail, closing, gap]
  | case3 found t gap rest' ht =>
    cases h
    rw [← Text.leadingBlanks_append_trimStart t, ht]
    simp [tail, closing, gap]
  | case4 => cases h
  | case5 => cases h
  | case6 found t gap c rest' _ _ _ _ ht hc a rest'' ha ih =>
    rw [← ih h, ← Text.leadingBlanks_append_trimStart t, ht]
    have := Attribute.append_of_read ha
    simp only [List.reverse_cons, List.flatMap_append, List.flatMap_cons, List.flatMap_nil,
      List.append_nil, List.append_assoc]
    rw [← this]
  | case7 => cases h
  | case8 => cases h

/-- Reading a head loses nothing. -/
theorem append_of_read {t rest : Text} {head : Head} (h : read t = .ok (head, rest)) :
    t = head.tail ++ rest := by
  unfold read at h
  split at h
  · next hn =>
    have := append_of_readOnto h
    rw [← this, TagName.append_of_read hn]
    simp
  · cases h

end Head

end LiquidTemplate
