import LiquidTemplate.Lexeme.Basic

/-!
# What opens a construct

At each place of a template at most one construct can begin, and a few characters tell which
(`opening?`). A `<` or a `{` that begins none is text.
-/

namespace LiquidTemplate

/-- The beginning of a construct (`Construct`). -/
inductive Opening where
  | drop
  | tag
  | comment
  /-- The word `doctype` is kept as written. -/
  | doctype (keyword : Text)
  | endTag
  | startTag
deriving DecidableEq, Repr

namespace Opening

/-- The text of the beginning. -/
def chars : Opening → Text
  | drop => Delimiter.drop.opening
  | tag => Delimiter.tag.opening
  | comment => Delimiter.comment.opening
  | doctype keyword => ['<', '!'] ++ keyword
  | endTag => ['<', '/']
  | startTag => ['<']

/-- Whether the name of a tag can begin here: an ASCII letter or a drop (`tag_name_at`). -/
def startsName : Text → Bool
  | '{' :: '{' :: _ => true
  | c :: _ => c.isAlpha
  | [] => false

/-- The word `doctype` in any case, and what follows it. -/
def doctype? (t : Text) : Option (Opening × Text) :=
  if Keyword.fold (t.take 7) = "doctype".toList then some (doctype (t.take 7), t.drop 7) else none

/-- The construct that begins at the start of a text, and what follows its beginning
(`construct_at`). -/
def ofText? : Text → Option (Opening × Text)
  | '{' :: '{' :: rest => some (drop, rest)
  | '{' :: '%' :: rest => some (tag, rest)
  | '<' :: '!' :: '-' :: '-' :: rest => some (comment, rest)
  | '<' :: '!' :: rest => doctype? rest
  | '<' :: '/' :: rest => if startsName rest then some (endTag, rest) else none
  | '<' :: rest => if startsName rest then some (startTag, rest) else none
  | _ => none

theorem append_of_doctype? {t rest : Text} {o : Opening} (h : doctype? t = some (o, rest)) :
    '<' :: '!' :: t = o.chars ++ rest := by
  simp only [doctype?, Option.ite_none_right_eq_some, Option.some.injEq, Prod.mk.injEq] at h
  obtain ⟨_, rfl, rfl⟩ := h
  simp [chars]

theorem append_of_ofText? {t rest : Text} {o : Opening} (h : ofText? t = some (o, rest)) :
    t = o.chars ++ rest := by
  unfold ofText? at h
  split at h
  · cases h; rfl
  · cases h; rfl
  · cases h; rfl
  · exact append_of_doctype? h
  · split at h <;> cases h; rfl
  · split at h <;> cases h; rfl
  · cases h

theorem chars_ne_nil (o : Opening) : o.chars ≠ [] := by
  cases o <;> simp [chars, Delimiter.opening]

end Opening

end LiquidTemplate
