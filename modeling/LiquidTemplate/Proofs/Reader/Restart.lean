import LiquidTemplate.Proofs.Reader.Tokens
import LiquidTemplate.Proofs.Nesting.Relocation

/-!
# Scanning from the middle of a template

A token depends on the text from its start on and on nothing in front of it; a token that is moved
has all its spans moved (`Token.reading_shift`). So scanning may start again where a token starts,
and also inside a run of text, where no construct begins: what is left of the run is a token, and
the others follow as before (`Cursor.tokens_restart`).
-/

namespace LiquidTemplate

/-! ## Moving spans -/

def PieceParts.shift (n : Nat) (p : PieceParts) : PieceParts := { p with whole := p.whole.shift n }

def ValueParts.shift (n : Nat) (v : ValueParts) : ValueParts :=
  ⟨v.whole.shift n, v.quote, v.pieces.map (PieceParts.shift n)⟩

def AttributeParts.shift (n : Nat) (a : AttributeParts) : AttributeParts :=
  ⟨a.whole.shift n, a.name.shift n, a.value.map (ValueParts.shift n)⟩

def NameParts.shift (n : Nat) (p : NameParts) : NameParts := { p with whole := p.whole.shift n }

def HeadParts.shift (n : Nat) (h : HeadParts) : HeadParts :=
  ⟨h.whole.shift n, h.name.shift n, h.attributes.map (AttributeParts.shift n), h.selfClosing⟩

/-- The same parts, `n` bytes further on. -/
def Parts.shift (n : Nat) : Parts → Parts
  | text => text
  | drop => drop
  | tag => tag
  | startTag head => startTag (head.shift n)
  | endTag name => endTag (name.shift n)
  | comment body => comment (body.shift n)
  | doctype value => doctype (value.shift n)
  | rawElement head body close => rawElement (head.shift n) (body.shift n) (close.shift n)
  | rawTag opening body close => rawTag (opening.shift n) (body.shift n) (close.shift n)
  | invalid flaw => invalid flaw

/-- A token that is read `n` bytes further on. -/
def Reading.shift (n : Nat) (r : Reading) : Reading := ⟨r.whole.shift n, r.parts.shift n⟩

section Shift

variable (n : Nat)

theorem PieceParts.ofPiece_shift (p : Located Piece) :
    ofPiece (p.shift n) = (ofPiece p).shift n := by
  simp only [ofPiece, Located.shift, shift, Span.ofText_add]

theorem ValueParts.ofValue_shift (v : Located Value) :
    ofValue (v.shift n) = (ofValue v).shift n := by
  obtain ⟨start, v⟩ := v
  simp only [ofValue, Located.shift, Value.piecesAt, shift, Span.ofText_add]
  rw [Nat.add_right_comm, Located.locate_add, List.map_map, List.map_map]
  congr 1
  exact List.map_congr_left fun p _ => PieceParts.ofPiece_shift n p

theorem AttributeParts.ofAttribute_shift (a : Located Attribute) :
    ofAttribute (a.shift n) = (ofAttribute a).shift n := by
  obtain ⟨start, a⟩ := a
  simp only [ofAttribute, Located.shift, Attribute.valueAt?_add, shift, Span.ofText_add,
    Option.map_map]
  congr 2
  exact funext fun v => ValueParts.ofValue_shift n v

theorem NameParts.ofName_add (start : Nat) (name : TagName) :
    ofName (start + n) name = (ofName start name).shift n := by
  simp only [ofName, shift, Span.ofText_add]

theorem HeadParts.ofHead_add (start : Nat) (h : Head) :
    ofHead (start + n) h = (ofHead start h).shift n := by
  simp only [ofHead, shift, Span.ofText_add, Head.attributesAt_add, List.map_map,
    Nat.add_right_comm start n, NameParts.ofName_add]
  congr 1
  exact List.map_congr_left fun a _ => AttributeParts.ofAttribute_shift n a

/-- A token that is moved has all its spans moved. -/
theorem Token.reading_shift (t : Token) : reading (t.shift n) = (reading t).shift n := by
  obtain ⟨start, item⟩ := t
  rw [reading, reading, Reading.shift, Located.shift, span_add, Reading.mk.injEq]
  refine ⟨rfl, ?_⟩
  cases item with
  | startTag head => simp only [parts, Parts.shift, HeadParts.ofHead_add]
  | endTag name gap =>
    simp only [parts, Parts.shift, Nat.add_right_comm start n, NameParts.ofName_add]
  | comment body => simp only [parts, Parts.shift, Nat.add_right_comm start n, Span.ofText_add]
  | doctype keyword raw =>
    simp only [parts, Parts.shift, Nat.add_right_comm _ n, Span.ofText_add]
  | rawElement head body closeName closeRest =>
    simp only [parts, Parts.shift, HeadParts.ofHead_add, Nat.add_right_comm start n,
      Span.ofText_add, stop_eq]
    rfl
  | rawTag opening body closing =>
    simp only [parts, Parts.shift, Span.ofText_add, Span.shift, Nat.add_right_comm _ n, stop_eq]
  | _ => rfl

end Shift

/-! ## Places to start again -/

namespace Token

variable {source : Text} {ts us : List Token} {t : Token}

/-- Inside a run of text what is left of the run comes first, then the tokens behind it. -/
theorem ofTextAt_inside {value : Text} {o : Nat} (h : ofText source = ts ++ t :: us)
    (ht : t.item = .text value) (hstart : t.start < o) (hstop : o < t.stop)
    (ho : Text.IsBoundary source o) :
    ∃ before rest after, source = before ++ after ∧ Text.size before = o ∧
      ofTextAt o after = ⟨o, .text rest⟩ :: us ∧ stop ⟨o, .text rest⟩ = t.stop := by
  obtain ⟨hsource, hsize, -⟩ := ofTextAt_start h
  have hnext := next?_start h
  have hlast := ofTextAt_stop h
  obtain ⟨before, after, hcut, rfl⟩ := ho
  have hchars : t.item.chars = value := by rw [ht]; rfl
  rw [stop_eq, hchars] at hstop hlast ⊢
  rw [covered_cons, hchars] at hsource
  rw [hchars, ht] at hnext
  obtain ⟨u, v, rfl, rfl, rfl⟩ := Text.append_eq_append_of_size (hcut.symm.trans hsource)
    (hsize.symm ▸ hstart) (by rwa [Text.size_append, hsize])
  have hv : v ≠ [] := by
    rintro rfl
    rw [List.append_nil, Text.size_append, hsize] at hstop
    exact Nat.lt_irrefl _ hstop
  have hend : t.start + Text.size u + Text.size v = t.start + Text.size (u ++ v) := by
    rw [Text.size_append, Nat.add_assoc]
  refine ⟨covered ts ++ u, v, v ++ covered us, hcut, rfl, ?_, ?_⟩
  · rw [ofTextAt, Lexeme.ofText_of_next? (Lexeme.next?_text_of_next? hnext hv),
      Located.locate_cons, Text.size_append, hsize]
    change _ :: ofTextAt (t.start + Text.size u + Text.size v) _ = _
    rw [hend, hlast]
  · rw [stop_eq, Text.size_append, hsize]
    exact hend

end Token

namespace Cursor

/-- **Restarting**: let scanning start again where a token starts or at a character boundary inside
a run of text. It then gives this token from there on, and all tokens behind it as they are. The
rest of the template has the same tokens on its own, with all spans counted from its start. -/
theorem tokens_restart {source : Text} {ts us : List Token} {t : Token} {o : Nat}
    (h : Token.ofText source = ts ++ t :: us)
    (ho : o = t.start ∨ (∃ value, t.item = .text value) ∧ t.start < o ∧ o < t.stop ∧
      Text.IsBoundary source o) :
    let all := ⟨⟨o, t.stop⟩, t.parts⟩ :: us.map Token.reading
    (ofOffset source o).offset = o ∧
    (ofOffset source o).tokens.map Token.reading = all ∧
    Reader.tokens source o = pure all ∧
    ∃ before after, source = before ++ after ∧ Text.size before = o ∧
      ((Token.ofText after).map Token.reading).map (Reading.shift o) = all ∧
      Reader.tokens after 0 = pure ((Token.ofText after).map Token.reading) := by
  intro all
  obtain ⟨before, after, hsource, hsize, hall⟩ : ∃ before after, source = before ++ after ∧
      Text.size before = o ∧ (Token.ofTextAt o after).map Token.reading = all := by
    rcases ho with rfl | ⟨⟨value, ht⟩, hstart, hstop, hbound⟩
    · obtain ⟨hsource, hsize, htokens⟩ := Token.ofTextAt_start h
      exact ⟨_, _, hsource, hsize, by rw [htokens]; rfl⟩
    · obtain ⟨before, rest, after, hsource, hsize, htokens, hend⟩ :=
        Token.ofTextAt_inside h ht hstart hstop hbound
      refine ⟨before, after, hsource, hsize, ?_⟩
      rw [htokens, List.map_cons, Token.reading, Token.span, hend]
      simp only [all, Token.parts, ht]
  have hcursor : ofOffset source o = ⟨o, after⟩ := by
    rw [ofOffset, hsource, ← hsize, Text.splitAtMost_size_append]
  have hstands : Stands source ⟨o, after⟩ := ⟨before, hsource, hsize⟩
  refine ⟨by rw [hcursor], by rw [hcursor]; exact hall, ?_, before, after, hsource, hsize, ?_, ?_⟩
  · rw [Reader.tokens_eq hstands, hall]
  · rw [← hall, Token.ofTextAt_eq_map, List.map_map, List.map_map]
    exact List.map_congr_left fun u _ => (Token.reading_shift o u).symm
  · exact Reader.tokens_eq (⟨[], rfl, rfl⟩ : Stands after ⟨0, after⟩)

/-- Inside a run of text, behind its first letter. -/
theorem tokens_restart_inside_text :
    ∃ us, Token.ofText "xé{{ y }}</p>".toList = ⟨0, .text "xé".toList⟩ :: us ∧ us.length = 2 ∧
      (ofOffset "xé{{ y }}</p>".toList 1).tokens.map Token.reading =
        ⟨⟨1, 3⟩, .text⟩ :: us.map Token.reading ∧
      Reader.tokens "xé{{ y }}</p>".toList 1 = pure (⟨⟨1, 3⟩, .text⟩ :: us.map Token.reading) ∧
      ((Token.ofText "é{{ y }}</p>".toList).map Token.reading).map (Reading.shift 1) =
        ⟨⟨1, 3⟩, .text⟩ :: us.map Token.reading := by
  have htokens : Token.ofText "xé{{ y }}</p>".toList = [] ++ ⟨0, .text "xé".toList⟩ ::
      [⟨3, .drop " y ".toList⟩, ⟨10, .endTag (.fixed "p".toList) []⟩] := by decide +kernel
  obtain ⟨-, hcursor, hreader, before, after, hsource, hsize, hafter, -⟩ :=
    tokens_restart (o := 1) htokens
      (.inr ⟨⟨_, rfl⟩, by decide, by decide, "x".toList, "é{{ y }}</p>".toList, rfl, rfl⟩)
  obtain ⟨rfl, rfl⟩ : before = "x".toList ∧ after = "é{{ y }}</p>".toList := by
    have hcut := Text.splitAt?_eq_some_iff.2 ⟨hsource, hsize⟩
    have hcut' : Text.splitAt? 1 "xé{{ y }}</p>".toList =
        some ("x".toList, "é{{ y }}</p>".toList) := by decide +kernel
    exact Prod.mk.inj (Option.some.inj (hcut.symm.trans hcut'))
  exact ⟨_, htokens, rfl, hcursor, hreader, hafter⟩

end Cursor

end LiquidTemplate
