import LiquidTemplate.Proofs.Lexeme.Sequence

/-!
# Constructs inside lexemes

A drop may be the name of a tag or part of an attribute value, and a raw tag has a tag at each end.
Wherever a drop or a tag is read, it ends at the first closing behind its opening, so its text alone
is read as itself (`Lexeme.closed_of_mem_ofText`).
-/

namespace LiquidTemplate

namespace Delimiter

/-- The construct that encloses `inner` ends where it should: its closing is the first one. -/
def Closes (d : Delimiter) (inner : Text) : Prop :=
  d.finish? (inner ++ d.closing) = some (inner, [])

instance (d : Delimiter) (inner : Text) : Decidable (d.Closes inner) :=
  inferInstanceAs (Decidable (_ = _))

theorem closes_of_finish? {d : Delimiter} {t inner rest : Text}
    (h : d.finish? t = some (inner, rest)) : d.Closes inner := by
  have := finish?_append h []
  rwa [List.append_nil] at this

end Delimiter

def TagName.Closed : TagName → Prop
  | fixed _ => True
  | dynamic inner => Delimiter.drop.Closes inner

def Piece.Closed : Piece → Prop
  | text _ => True
  | drop inner => Delimiter.drop.Closes inner

def Value.Closed (v : Value) : Prop := ∀ p ∈ v.pieces, p.Closed

def Attribute.Closed (a : Attribute) : Prop := ∀ s ∈ a.assignment, s.value.Closed

def Head.Closed (h : Head) : Prop := h.name.Closed ∧ ∀ a ∈ h.attributes, a.Closed

/-- All drops and tags in the lexeme end at the first closing behind their opening. -/
def Lexeme.Closed : Lexeme → Prop
  | drop inner => Delimiter.drop.Closes inner
  | tag inner => Delimiter.tag.Closes inner
  | startTag head | rawElement head _ _ _ => head.Closed
  | endTag name _ => name.Closed
  | rawTag opening _ closing => Delimiter.tag.Closes opening ∧ Delimiter.tag.Closes closing
  | text _ | comment _ | doctype _ _ | invalid _ _ => True

theorem TagName.closed_of_read {t rest : Text} {name : TagName} (h : read t = .ok (name, rest)) :
    name.Closed := by
  unfold read at h
  split at h
  · split at h
    · next hf => cases h; exact Delimiter.closes_of_finish? hf
    · cases h
  · cases h; trivial

namespace Piece

theorem closed_flush {run : Text} {pieces : List Piece} (h : ∀ p ∈ pieces, p.Closed) :
    ∀ p ∈ flush run pieces, p.Closed := by
  cases run with
  | nil => exact h
  | cons c run => exact List.forall_mem_cons.2 ⟨trivial, h⟩

theorem closed_of_readOnto {stop : Char → Bool} {pieces found : List Piece} {run t rest : Text}
    (hp : ∀ p ∈ pieces, p.Closed) (h : readOnto stop pieces run t = .ok (found, rest)) :
    ∀ p ∈ found, p.Closed := by
  fun_induction readOnto stop pieces run t with
  | case1 => cases h; simpa using closed_flush hp
  | case2 pieces run rest' inner rest'' hf ih =>
    exact ih (List.forall_mem_cons.2 ⟨Delimiter.closes_of_finish? hf, closed_flush hp⟩) h
  | case3 => cases h
  | case4 _ _ _ _ _ _ ih => exact ih hp h
  | case5 => cases h
  | case6 => cases h; simpa using closed_flush hp
  | case7 _ _ _ _ _ _ _ ih => exact ih hp h

end Piece

namespace Value

theorem closed_of_readQuoted {q : Quote} {t rest : Text} {v : Value}
    (h : readQuoted q t = .ok (v, rest)) : v.Closed := by
  unfold readQuoted at h
  cases hp : Piece.read (· == q.char) t with
  | error f => simp [hp, bind, Except.bind] at h
  | ok found =>
    obtain ⟨pieces, rest'⟩ := found
    simp only [hp, bind, Except.bind] at h
    split at h
    · cases h
    · cases h; exact Piece.closed_of_readOnto (List.forall_mem_nil _) hp

theorem closed_of_readUnquoted {t rest : Text} {v : Value}
    (h : readUnquoted t = .ok (v, rest)) : v.Closed := by
  unfold readUnquoted at h
  cases hp : Piece.read (fun c => !isUnquotedChar c) t with
  | error f => simp [hp, bind, Except.bind] at h
  | ok found =>
    obtain ⟨pieces, rest'⟩ := found
    simp only [hp, bind, Except.bind] at h
    split at h
    · cases h
    · cases h; exact Piece.closed_of_readOnto (List.forall_mem_nil _) hp

theorem closed_of_read {t rest : Text} {v : Value} (h : read t = .ok (v, rest)) : v.Closed := by
  unfold read at h
  split at h
  · cases h
  · split at h
    · exact closed_of_readQuoted h
    · exact closed_of_readUnquoted h

end Value

theorem Attribute.closed_of_read {gap t rest : Text} {a : Attribute}
    (h : read gap t = .ok (a, rest)) : a.Closed := by
  simp only [read] at h
  split at h
  · split at h
    · next hv =>
      cases h
      intro s hs
      cases hs
      exact Value.closed_of_read hv
    · cases h
  · cases h
    intro s hs
    cases hs

namespace Head

theorem closed_of_readOnto {name : TagName} {found : List Attribute} {t rest : Text} {head : Head}
    (hn : name.Closed) (hf : ∀ a ∈ found, a.Closed)
    (h : readOnto name found t = .ok (head, rest)) : head.Closed := by
  fun_induction readOnto name found t with
  | case2 => cases h; exact ⟨hn, by simpa using hf⟩
  | case3 => cases h; exact ⟨hn, by simpa using hf⟩
  | case6 _ _ _ _ _ _ _ _ _ _ _ _ _ ha ih =>
    exact ih (List.forall_mem_cons.2 ⟨Attribute.closed_of_read ha, hf⟩) h
  | case1 => cases h
  | case4 => cases h
  | case5 => cases h
  | case7 => cases h
  | case8 => cases h

theorem closed_of_read {t rest : Text} {head : Head} (h : read t = .ok (head, rest)) :
    head.Closed := by
  unfold read at h
  split at h
  · next hn => exact closed_of_readOnto (TagName.closed_of_read hn) (by simp) h
  · cases h

end Head

theorem Raw.closes_of_readTagOnto? {name body t body' closing rest : Text}
    (h : readTagOnto? name body t = some (body', closing, rest)) :
    Delimiter.tag.Closes closing := by
  fun_induction readTagOnto? name body t with
  | case1 => cases h
  | case2 => cases h
  | case3 _ _ _ _ _ _ _ h₂ _ => cases h; exact Delimiter.closes_of_finish? h₂
  | case4 _ _ _ _ _ _ _ _ _ ih => exact ih h

theorem Opening.closed_of_complete {o : Opening} {t rest : Text} {l : Lexeme}
    (h : o.complete t = .ok (l, rest)) : l.Closed := by
  cases o with
  | drop =>
    simp only [complete] at h
    split at h
    · next hf => cases h; exact Delimiter.closes_of_finish? hf
    · cases h
  | tag =>
    simp only [complete] at h
    split at h
    · cases h
    · next hf =>
      have hopen := Delimiter.closes_of_finish? hf
      split at h
      · split at h
        · next hr => cases h; exact ⟨hopen, Raw.closes_of_readTagOnto? hr⟩
        · cases h
      · cases h; exact hopen
  | comment =>
    simp only [complete] at h
    split at h <;> cases h
    trivial
  | doctype keyword =>
    simp only [complete] at h
    split at h <;> cases h
    trivial
  | endTag =>
    simp only [complete] at h
    split at h
    · cases h
    · next hn =>
      split at h <;> cases h
      exact TagName.closed_of_read hn
  | startTag =>
    simp only [complete] at h
    split at h
    · cases h
    · next hh =>
      have hhead := Head.closed_of_read hh
      split at h
      · cases h; exact hhead
      · split at h <;> cases h
        exact hhead

namespace Lexeme

theorem closed_of_next? {t rest : Text} {l : Lexeme} (h : next? t = some (l, rest)) : l.Closed := by
  cases t with
  | nil => cases h
  | cons c more =>
    simp only [next?] at h
    split at h
    · cases h; trivial
    · split at h
      · next hc => cases h; exact Opening.closed_of_complete hc
      · cases h; trivial

/-- Whatever a lexeme of a template encloses is enclosed by its own delimiters. -/
theorem closed_of_mem_ofText {t : Text} {l : Lexeme} (h : l ∈ ofText t) : l.Closed := by
  obtain ⟨rest, hn⟩ := next?_of_mem_ofText h
  exact closed_of_next? hn

/-- A drop that ends at the first closing is a template of its own. -/
theorem ofText_enclose {inner : Text} (h : Delimiter.drop.Closes inner) :
    ofText (Delimiter.drop.enclose inner) = [drop inner] := by
  have hcomplete : Opening.drop.complete (inner ++ Delimiter.drop.closing) =
      .ok (drop inner, []) := by
    have hf : Delimiter.drop.finish? (inner ++ Delimiter.drop.closing) = some (inner, []) := h
    simp only [Opening.complete, hf]
  have hnext := next?_of_complete (show Opening.drop.Fits _ from trivial) hcomplete
  rw [show Delimiter.drop.enclose inner = Opening.drop.chars ++ (inner ++ Delimiter.drop.closing) by
    simp [Delimiter.enclose, Opening.chars], ofText_of_next? hnext, ofText_nil]

end Lexeme

end LiquidTemplate
