import LiquidTemplate.Lexeme.Opening
import LiquidTemplate.Lexeme.Head
import LiquidTemplate.Lexeme.Raw

/-!
# Splitting a template into lexemes

Where a construct begins, the lexeme is that construct; elsewhere it is text up to the next place
where one begins. A construct that cannot be completed makes the rest of the template one invalid
lexeme. Main statements: no lexeme is empty and nothing is lost (`append_of_next?`,
`flatMap_chars_ofText`).
-/

namespace LiquidTemplate

namespace Opening

/-- Completes a construct from the text behind its beginning: `scan_drop`, `scan_liquid_tag`,
`scan_comment`, `scan_doctype`, `scan_end_tag` and `scan_start_tag`. -/
def complete : Opening → Text → Except Flaw (Lexeme × Text)
  | drop, t =>
    match Delimiter.drop.finish? t with
    | some (inner, rest) => .ok (.drop inner, rest)
    | none => .error (.unterminated .drop)
  | tag, t =>
    match Delimiter.tag.finish? t with
    | none => .error (.unterminated .tag)
    | some (inner, rest) =>
      let name := (Tag.ofInner inner).name
      if Keyword.isRawTag name then
        match Raw.readTag? name rest with
        | some (body, closing, rest') => .ok (.rawTag inner body closing, rest')
        | none => .error (.unclosedRaw name)
      else .ok (.tag inner, rest)
  | comment, t =>
    match Delimiter.comment.finish? t with
    | some (body, rest) => .ok (.comment body, rest)
    | none => .error (.unterminated .comment)
  | doctype keyword, t =>
    match Text.splitFirst? ['>'] t with
    | some (raw, rest) => .ok (.doctype keyword raw, rest)
    | none => .error (.head .unterminatedDoctype)
  | endTag, t =>
    match TagName.read t with
    | .error flaw => .error flaw
    | .ok (name, rest) =>
      match Text.trimStart rest with
      | '>' :: rest' => .ok (.endTag name (Text.leadingBlanks rest), rest')
      | _ => .error (.head .unclosedEndTag)
  | startTag, t =>
    match Head.read t with
    | .error flaw => .error flaw
    | .ok (head, rest) =>
      match head.rawName? with
      | none => .ok (.startTag head, rest)
      | some name =>
        match Raw.readElement? name rest with
        | some (e, rest') => .ok (.rawElement head e.body e.name e.gap, rest')
        | none => .error (.unclosedRaw (Keyword.fold name))

theorem append_of_complete {o : Opening} {t rest : Text} {l : Lexeme}
    (h : o.complete t = .ok (l, rest)) : o.chars ++ t = l.chars ++ rest := by
  cases o with
  | drop =>
    simp only [complete] at h
    split at h
    · next hf =>
      cases h
      simp [chars, Lexeme.chars, Delimiter.enclose, Delimiter.append_of_finish? hf]
    · cases h
  | tag =>
    simp only [complete] at h
    split at h
    · cases h
    · next hf =>
      split at h
      · split at h
        · next hr =>
          cases h
          simp [chars, Lexeme.chars, Delimiter.enclose, Delimiter.append_of_finish? hf,
            Raw.append_of_readTag? hr]
        · cases h
      · cases h
        simp [chars, Lexeme.chars, Delimiter.enclose, Delimiter.append_of_finish? hf]
  | comment =>
    simp only [complete] at h
    split at h
    · next hf =>
      cases h
      simp [chars, Lexeme.chars, Delimiter.enclose, Delimiter.append_of_finish? hf]
    · cases h
  | doctype keyword =>
    simp only [complete] at h
    split at h
    · next hf =>
      cases h
      simp [chars, Lexeme.chars, Text.append_of_splitFirst? hf]
    · cases h
  | endTag =>
    simp only [complete] at h
    split at h
    · cases h
    · next name rest₁ hn =>
      split at h
      · next rest₂ ht =>
        cases h
        have hr := Text.leadingBlanks_append_trimStart rest₁
        rw [ht] at hr
        simp only [chars, Lexeme.chars, TagName.append_of_read hn, List.append_assoc,
          List.singleton_append]
        rw [hr]
      · cases h
  | startTag =>
    simp only [complete] at h
    split at h
    · cases h
    · next head rest₁ hh =>
      split at h
      · cases h
        simp [chars, Lexeme.chars, Head.chars, Head.append_of_read hh]
      · split at h
        · next he =>
          cases h
          simp [chars, Lexeme.chars, Head.chars, Head.append_of_read hh,
            Raw.append_of_readElement? he]
        · cases h

theorem chars_ne_nil_of_complete {o : Opening} {t rest : Text} {l : Lexeme}
    (h : o.complete t = .ok (l, rest)) : l.chars ≠ [] := by
  cases o <;> simp only [complete] at h <;> (repeat' split at h) <;> cases h <;>
    simp [Lexeme.chars, Delimiter.enclose, Delimiter.opening, Head.chars]

end Opening

namespace Lexeme

/-- Whether a construct begins at the start of the text. -/
def startsConstruct (t : Text) : Bool := (Opening.ofText? t).isSome

/-- The first lexeme of a text and what follows it (`scan_token`); `none` at the end. -/
def next? : Text → Option (Lexeme × Text)
  | [] => none
  | c :: rest =>
    match Opening.ofText? (c :: rest) with
    | none =>
      let (more, rest') := Text.breakAt startsConstruct rest
      some (text (c :: more), rest')
    | some (opening, rest') =>
      match opening.complete rest' with
      | .ok found => some found
      | .error flaw => some (invalid flaw (c :: rest), [])

/-- A lexeme and what follows it are the text they were read from. -/
theorem append_of_next? {t rest : Text} {l : Lexeme} (h : next? t = some (l, rest)) :
    t = l.chars ++ rest := by
  cases t with
  | nil => cases h
  | cons c more =>
    simp only [next?] at h
    split at h
    · cases h
      simp [chars, Text.breakAt_append]
    · next o rest₁ ho =>
      rw [Opening.append_of_ofText? ho]
      split at h
      · next hc => cases h; exact Opening.append_of_complete hc
      · cases h; simp [chars, ← Opening.append_of_ofText? ho]

/-- No lexeme is empty. -/
theorem chars_ne_nil_of_next? {t rest : Text} {l : Lexeme} (h : next? t = some (l, rest)) :
    l.chars ≠ [] := by
  cases t with
  | nil => cases h
  | cons c more =>
    simp only [next?] at h
    split at h
    · cases h; simp [chars]
    · split at h
      · next hc => cases h; exact Opening.chars_ne_nil_of_complete hc
      · cases h; simp [chars]

theorem length_lt_of_next? {t rest : Text} {l : Lexeme} (h : next? t = some (l, rest)) :
    rest.length < t.length := by
  have hpos : 0 < l.chars.length := List.length_pos_iff.2 (chars_ne_nil_of_next? h)
  rw [append_of_next? h, List.length_append]
  omega

/-- Splits a text behind the lexemes in `found`, which are kept in reverse. -/
def ofTextOnto (found : List Lexeme) (t : Text) : List Lexeme :=
  match _h : next? t with
  | none => found.reverse
  | some (l, rest) => ofTextOnto (l :: found) rest
termination_by t.length
decreasing_by exact length_lt_of_next? _h

/-- The lexemes of a text (`tokenize`). -/
def ofText (t : Text) : List Lexeme := ofTextOnto [] t

theorem ofTextOnto_eq (found : List Lexeme) (t : Text) :
    ofTextOnto found t = found.reverse ++ ofText t := by
  suffices key : ∀ n, ∀ (found more : List Lexeme) (t : Text), t.length ≤ n →
      ofTextOnto (more ++ found) t = found.reverse ++ ofTextOnto more t by
    simpa [ofText] using key t.length found [] t (Nat.le_refl _)
  intro n
  induction n with
  | zero =>
    intro found more t hn
    have : t = [] := List.length_eq_zero_iff.1 (Nat.le_zero.1 hn)
    subst this
    rw [ofTextOnto, ofTextOnto]
    simp [next?]
  | succ n ih =>
    intro found more t hn
    rw [ofTextOnto, ofTextOnto]
    split
    · simp
    · next l rest h =>
      have := length_lt_of_next? h
      simpa using ih found (l :: more) rest (by omega)

/-- The lexemes of a text are its first one and those of the rest. -/
theorem ofText_eq (t : Text) :
    ofText t = match next? t with
      | none => []
      | some (l, rest) => l :: ofText rest := by
  rw [ofText, ofTextOnto]
  split <;> next h => simp [h, ofTextOnto_eq]

/-- Splitting a text into lexemes loses nothing. -/
theorem flatMap_chars_ofText (t : Text) : (ofText t).flatMap chars = t := by
  suffices key : ∀ n, ∀ t : Text, t.length ≤ n → (ofText t).flatMap chars = t from
    key t.length t (Nat.le_refl _)
  intro n
  induction n with
  | zero =>
    intro t hn
    have : t = [] := List.length_eq_zero_iff.1 (Nat.le_zero.1 hn)
    subst this
    rw [ofText_eq]; rfl
  | succ n ih =>
    intro t hn
    rw [ofText_eq]
    split
    · next h =>
      cases t with
      | nil => rfl
      | cons c rest =>
        simp only [next?] at h
        split at h
        · cases h
        · split at h <;> cases h
    · next l rest h =>
      have := length_lt_of_next? h
      rw [List.flatMap_cons, ih rest (by omega), ← append_of_next? h]

end Lexeme

end LiquidTemplate
