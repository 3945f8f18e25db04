import LiquidTemplate.Lexeme.Basic

/-!
# Verbatim bodies

The body of a raw element ends at the first `</` that is followed by the element's name, in any
case, and then by `>` or an ASCII blank. The body of a raw Liquid tag ends at its end tag; to find
it, each `{%` is paired with the next `%}`, so an opening in the body hides what stands before that
closing.
-/

namespace LiquidTemplate.Raw

/-- Whether a name may end in front of this text. -/
def endsName : Text → Bool
  | [] => false
  | c :: _ => c = '>' || Text.isAsciiBlank c

/-- The name in an end tag of the element `name` that starts here, as it is written, and what
follows the name: the test that `scan_raw_element` makes at each `</`. -/
def endTagOf? (name : Text) : Text → Option (Text × Text)
  | '<' :: '/' :: rest =>
    let written := rest.take name.length
    let rest' := rest.drop name.length
    if Keyword.fold written = Keyword.fold name && endsName rest' then some (written, rest')
    else none
  | _ => none

theorem append_of_endTagOf? {name t written rest : Text}
    (h : endTagOf? name t = some (written, rest)) : t = ['<', '/'] ++ written ++ rest := by
  unfold endTagOf? at h
  split at h
  · simp only [Option.ite_none_right_eq_some, Option.some.injEq, Prod.mk.injEq] at h
    obtain ⟨_, rfl, rfl⟩ := h
    simp
  · cases h

/-- The end of a raw element. -/
structure ElementEnd where
  body : Text
  /-- The name in the end tag, as written. -/
  name : Text
  /-- What stands between the name and `>`. -/
  gap : Text
deriving DecidableEq, Repr

/-- Reads the body of the element `name` and its end tag (`scan_raw_element`). -/
def readElement? (name t : Text) : Option (ElementEnd × Text) := do
  let (body, written, rest) ← Text.firstSuffix? (endTagOf? name) t
  let (gap, rest') ← Text.splitFirst? ['>'] rest
  return (⟨body, written, gap⟩, rest')

theorem append_of_readElement? {name t rest : Text} {e : ElementEnd}
    (h : readElement? name t = some (e, rest)) :
    t = e.body ++ ['<', '/'] ++ e.name ++ e.gap ++ ['>'] ++ rest := by
  simp only [readElement?, bind, Option.bind_eq_some_iff] at h
  obtain ⟨⟨body, written, rest₁⟩, hb, ⟨gap, rest₂⟩, hg, he⟩ := h
  cases he
  obtain ⟨suffix, ht, hs⟩ := Text.firstSuffix?_append hb
  have hg : Text.splitFirst? ['>'] rest₁ = some (gap, rest₂) := hg
  rw [ht, append_of_endTagOf? hs, Text.append_of_splitFirst? hg]
  simp

/-- Reads the body of the raw tag `name` and what stands between the delimiters of its end tag, as
the loop of `scan_raw_tag` does: it pairs each opening with the next closing. The part of the body
read so far is kept in reverse. -/
def readTagOnto? (name body t : Text) : Option (Text × Text × Text) :=
  match _h₁ : Text.splitFirst? Delimiter.tag.opening t with
  | none => none
  | some (before, rest) =>
    match _h₂ : Delimiter.tag.finish? rest with
    | none => none
    | some (inner, rest') =>
      if (Tag.ofInner inner).name = Keyword.endTag name then
        some ((before.reverse ++ body).reverse, inner, rest')
      else
        readTagOnto? name ((Delimiter.tag.enclose inner).reverse ++ (before.reverse ++ body)) rest'
termination_by t.length
decreasing_by
  have h₁ := Text.length_le_of_splitFirst? _h₁
  have h₂ := Delimiter.length_lt_of_finish? _h₂
  omega

/-- Reads the body of the raw tag `name` and what stands between the delimiters of its end tag
(`scan_raw_tag`). -/
def readTag? (name t : Text) : Option (Text × Text × Text) := readTagOnto? name [] t

theorem append_of_readTagOnto? {name body t body' closing rest : Text}
    (h : readTagOnto? name body t = some (body', closing, rest)) :
    body.reverse ++ t = body' ++ Delimiter.tag.enclose closing ++ rest := by
  fun_induction readTagOnto? name body t with
  | case1 => cases h
  | case2 => cases h
  | case3 body t before rest₁ h₁ inner rest₂ h₂ _ =>
    cases h
    rw [Text.append_of_splitFirst? h₁, Delimiter.append_of_finish? h₂]
    simp [Delimiter.enclose]
  | case4 body t before rest₁ h₁ inner rest₂ h₂ _ ih =>
    rw [← ih h, Text.append_of_splitFirst? h₁, Delimiter.append_of_finish? h₂]
    simp [Delimiter.enclose]

theorem append_of_readTag? {name t body closing rest : Text}
    (h : readTag? name t = some (body, closing, rest)) :
    t = body ++ Delimiter.tag.enclose closing ++ rest := by
  simpa using append_of_readTagOnto? h

end LiquidTemplate.Raw
