import LiquidTemplate.Proofs.Reader.Tokens

/-!
# The spans of a token

All spans that are kept with a token cover parts of it (`Token.covers_of_mem_spans`), so they lie in
the template, on character boundaries. Those whose markup is taken cover a drop or a Liquid tag with
both delimiters (`Token.encloses_of_mem_markups`), so there is room for these.
-/

namespace LiquidTemplate

open Located (Within)

/-! ## All spans of a token -/

namespace ValueParts

def spans (v : ValueParts) : List Span := v.whole :: v.pieces.map PieceParts.whole

/-- The drops in a value. -/
def drops (v : ValueParts) : List Span := (v.pieces.filter PieceParts.isDrop).map PieceParts.whole

end ValueParts

namespace AttributeParts

def spans (a : AttributeParts) : List Span :=
  a.whole :: a.name :: (a.value.map ValueParts.spans).getD []

def drops (a : AttributeParts) : List Span := (a.value.map ValueParts.drops).getD []

end AttributeParts

/-- The drop that is a name. -/
def NameParts.drops (n : NameParts) : List Span := if n.isDynamic then [n.whole] else []

namespace HeadParts

def spans (h : HeadParts) : List Span :=
  h.whole :: h.name.whole :: h.attributes.flatMap AttributeParts.spans

def drops (h : HeadParts) : List Span := h.name.drops ++ h.attributes.flatMap AttributeParts.drops

end HeadParts

/-- All spans that are kept with a token. -/
def Parts.spans : Parts → List Span
  | text | drop | tag | invalid _ => []
  | startTag head => head.spans
  | endTag name => [name.whole]
  | comment body => [body]
  | doctype value => [value]
  | rawElement head body close => head.spans ++ [body, close]
  | rawTag opening body close => [opening, body, close]

/-- The drops and Liquid tags whose markup is taken, each with its delimiters. -/
def Reading.markups (r : Reading) : List (Delimiter × Span) :=
  match r.parts with
  | .drop => [(.drop, r.whole)]
  | .tag => [(.tag, r.whole)]
  | .startTag head | .rawElement head _ _ => head.drops.map (Delimiter.drop, ·)
  | .endTag name => name.drops.map (Delimiter.drop, ·)
  | .rawTag opening _ close => [(.tag, opening), (.tag, close)]
  | .text | .comment _ | .doctype _ | .invalid _ => []

/-- The span covers a part of the text. -/
def Span.Covers (s : Span) (y : Located Text) : Prop :=
  ∃ t, Within ⟨s.start, t⟩ y ∧ s = .ofText s.start t

/-- The span covers a construct in the text, with both delimiters. -/
def Span.Encloses (s : Span) (d : Delimiter) (y : Located Text) : Prop :=
  d ≠ .comment ∧ ∃ inner, Within ⟨s.start, d.enclose inner⟩ y ∧
    s = .ofText s.start (d.enclose inner)

namespace Span

variable {x y : Located Text} {start : Nat} {t : Text}

theorem covers_ofText (h : Within ⟨start, t⟩ y) : (ofText start t).Covers y := ⟨t, h, rfl⟩

theorem Covers.trans {s : Span} (h : s.Covers x) (hxy : x.Within y) : s.Covers y := by
  obtain ⟨t, ht, hs⟩ := h
  exact ⟨t, ht.trans hxy, hs⟩

theorem encloses_ofText {d : Delimiter} (hd : d ≠ .comment) {inner : Text}
    (h : Within ⟨start, d.enclose inner⟩ y) : (ofText start (d.enclose inner)).Encloses d y :=
  ⟨hd, inner, h, rfl⟩

theorem Encloses.trans {s : Span} {d : Delimiter} (h : s.Encloses d x) (hxy : x.Within y) :
    s.Encloses d y := by
  obtain ⟨hd, inner, ht, hs⟩ := h
  exact ⟨hd, inner, ht.trans hxy, hs⟩

/-- What covers a part of a token that stands in the template lies in both, on boundaries. -/
theorem Covers.inRange {s : Span} {source : Text} (h : s.Covers y)
    (hy : y.Within ⟨0, source⟩) :
    s.start ≤ s.stop ∧ s.stop ≤ Text.size source ∧ Text.IsBoundary source s.start ∧
      Text.IsBoundary source s.stop ∧ y.start ≤ s.start ∧
        s.stop ≤ y.start + Text.size y.item := by
  obtain ⟨t, ht, hs⟩ := h
  have hstop : s.stop = s.start + Text.size t := congrArg Span.stop hs
  obtain ⟨hstart, hend⟩ : y.start ≤ s.start ∧
    s.start + Text.size t ≤ y.start + Text.size y.item := ht.le
  obtain ⟨hbegin, hfinish, -⟩ := Text.isBoundary_of_slice?
    (Located.within_iff_slice?.2 ⟨ht.trans hy, hstop⟩)
  exact ⟨by omega, hfinish.le_size, hbegin, hfinish, hstart, by omega⟩

/-- A construct has room for its delimiters, two bytes each, and begins and ends with them. -/
theorem Encloses.long {s : Span} {d : Delimiter} {source : Text} (h : s.Encloses d y)
    (hy : y.Within ⟨0, source⟩) :
    4 ≤ s.length ∧ Text.size d.opening = 2 ∧ Text.size d.closing = 2 ∧
      ∃ inner, Text.slice? source s = some (d.opening ++ inner ++ d.closing) := by
  obtain ⟨hd, inner, ht, hs⟩ := h
  obtain ⟨hopening, hsize⟩ := Reader.size_enclose hd inner
  have hclosing := hsize
  rw [Delimiter.enclose, Text.size_append, Text.size_append] at hclosing
  have hstop : s.stop = s.start + Text.size (d.enclose inner) := congrArg Span.stop hs
  refine ⟨?_, hopening, by omega, inner, Located.within_iff_slice?.2 ⟨ht.trans hy, hstop⟩⟩
  rw [Span.length]
  omega

end Span

/-! ## They cover parts of the token -/

namespace Value

theorem covers_of_mem_spans {v : Located Value} :
    ∀ s ∈ (ValueParts.ofValue v).spans, s.Covers ⟨v.start, v.item.chars⟩ := by
  simp only [ValueParts.spans, ValueParts.ofValue, List.map_map, List.forall_mem_cons,
    List.forall_mem_map]
  exact ⟨Span.covers_ofText (.refl _), fun p hp => Span.covers_ofText (within_pieces hp).1⟩

theorem encloses_of_mem_drops {v : Located Value} :
    ∀ s ∈ (ValueParts.ofValue v).drops, s.Encloses .drop ⟨v.start, v.item.chars⟩ := by
  intro s hs
  obtain ⟨p', hp', rfl⟩ := List.mem_map.1 hs
  obtain ⟨hp', hdrop⟩ := List.mem_filter.1 hp'
  obtain ⟨p, hp, rfl⟩ := List.mem_map.1 hp'
  have hwithin := (within_pieces hp).1
  obtain ⟨start, piece⟩ := p
  cases piece with
  | text value => cases hdrop
  | drop inner => exact Span.encloses_ofText (by simp) hwithin

end Value

namespace Attribute

variable {a : Located Attribute}

theorem covers_of_mem_spans :
    ∀ s ∈ (AttributeParts.ofAttribute a).spans, s.Covers ⟨a.start, a.item.body⟩ := by
  simp only [AttributeParts.spans, AttributeParts.ofAttribute, List.forall_mem_cons]
  refine ⟨Span.covers_ofText (.refl _), Span.covers_ofText within_name, ?_⟩
  cases hv : a.item.valueAt? a.start with
  | none => exact List.forall_mem_nil _
  | some v => exact fun s hs => (Value.covers_of_mem_spans s hs).trans (within_value hv)

theorem encloses_of_mem_drops :
    ∀ s ∈ (AttributeParts.ofAttribute a).drops, s.Encloses .drop ⟨a.start, a.item.body⟩ := by
  simp only [AttributeParts.drops, AttributeParts.ofAttribute]
  cases hv : a.item.valueAt? a.start with
  | none => exact List.forall_mem_nil _
  | some v => exact fun s hs => (Value.encloses_of_mem_drops s hs).trans (within_value hv)

end Attribute

theorem TagName.encloses_of_mem_drops {start : Nat} {name : TagName} :
    ∀ s ∈ (NameParts.ofName start name).drops, s.Encloses .drop ⟨start, name.chars⟩ := by
  cases name with
  | fixed name => exact List.forall_mem_nil _
  | dynamic inner =>
    intro s hs
    obtain rfl := List.mem_singleton.1 hs
    exact Span.encloses_ofText (by simp) (.refl _)

namespace Head

variable {start : Nat} {h : Head}

theorem covers_of_mem_spans :
    ∀ s ∈ (HeadParts.ofHead start h).spans, s.Covers ⟨start, h.chars⟩ := by
  simp only [HeadParts.spans, HeadParts.ofHead, List.flatMap_map, List.forall_mem_cons]
  refine ⟨Span.covers_ofText (.refl _), Span.covers_ofText within_name, fun s hs => ?_⟩
  obtain ⟨a, ha, hs⟩ := List.mem_flatMap.1 hs
  exact (Attribute.covers_of_mem_spans s hs).trans (within_attributes ha).1

theorem encloses_of_mem_drops :
    ∀ s ∈ (HeadParts.ofHead start h).drops, s.Encloses .drop ⟨start, h.chars⟩ := by
  simp only [HeadParts.drops, HeadParts.ofHead, List.flatMap_map, List.forall_mem_append]
  refine ⟨fun s hs => (TagName.encloses_of_mem_drops s hs).trans within_name, fun s hs => ?_⟩
  obtain ⟨a, ha, hs⟩ := List.mem_flatMap.1 hs
  exact (Attribute.encloses_of_mem_drops s hs).trans (within_attributes ha).1

end Head

namespace Token

/-- The token as a text at its offset. -/
def located (t : Token) : Located Text := ⟨t.start, t.item.chars⟩

/-- All spans that are kept with a token cover parts of it. -/
theorem covers_of_mem_spans (t : Token) : ∀ s ∈ t.span :: t.parts.spans, s.Covers t.located := by
  refine List.forall_mem_cons.2 ⟨Span.covers_ofText (.refl _), ?_⟩
  obtain ⟨start, l⟩ := t
  cases l with
  | startTag head => exact Head.covers_of_mem_spans
  | endTag name gap =>
    exact List.forall_mem_singleton.2
      (Span.covers_ofText (Lexeme.within_endTag_name start name gap))
  | comment body =>
    exact List.forall_mem_singleton.2 (Span.covers_ofText (Lexeme.within_comment_body start body))
  | doctype keyword raw =>
    exact List.forall_mem_singleton.2
      (Span.covers_ofText (Lexeme.within_doctype_value start keyword raw))
  | rawElement head body closeName closeRest =>
    obtain ⟨hhead, hbody, hclose, hstop⟩ :=
      Lexeme.within_rawElement start head body closeName closeRest
    refine List.forall_mem_append.2
      ⟨fun s hs => (Head.covers_of_mem_spans s hs).trans hhead, ?_⟩
    simp only [List.forall_mem_cons, List.not_mem_nil, false_implies, implies_true, and_true]
    exact ⟨Span.covers_ofText hbody, ⟨_, hclose, congrArg (Span.mk _) hstop⟩⟩
  | rawTag opening body closing =>
    obtain ⟨hopening, hbody, hclosing, hstop⟩ := Lexeme.within_rawTag start opening body closing
    simp only [Parts.spans, parts, List.forall_mem_cons, List.not_mem_nil, false_implies,
      implies_true, and_true]
    exact ⟨Span.covers_ofText hopening, Span.covers_ofText hbody,
      ⟨_, hclosing, congrArg (Span.mk _) hstop⟩⟩
  | text _ => exact List.forall_mem_nil _
  | drop _ => exact List.forall_mem_nil _
  | tag _ => exact List.forall_mem_nil _
  | invalid _ _ => exact List.forall_mem_nil _

/-- Where markup is taken there is a construct with both delimiters. -/
theorem encloses_of_mem_markups (t : Token) :
    ∀ m ∈ (reading t).markups, m.2.Encloses m.1 t.located := by
  obtain ⟨start, l⟩ := t
  cases l with
  | drop inner => exact List.forall_mem_singleton.2 (Span.encloses_ofText (by simp) (.refl _))
  | tag inner => exact List.forall_mem_singleton.2 (Span.encloses_ofText (by simp) (.refl _))
  | startTag head => exact List.forall_mem_map.2 Head.encloses_of_mem_drops
  | endTag name gap =>
    exact List.forall_mem_map.2 fun s hs =>
      (TagName.encloses_of_mem_drops s hs).trans (Lexeme.within_endTag_name start name gap)
  | rawElement head body closeName closeRest =>
    have hhead := (Lexeme.within_rawElement start head body closeName closeRest).1
    exact List.forall_mem_map.2 fun s hs => (Head.encloses_of_mem_drops s hs).trans hhead
  | rawTag opening body closing =>
    obtain ⟨hopening, -, hclosing, hstop⟩ := Lexeme.within_rawTag start opening body closing
    simp only [Reading.markups, reading, parts, List.forall_mem_cons, List.not_mem_nil,
      false_implies, implies_true, and_true]
    exact ⟨Span.encloses_ofText (by simp) hopening,
      ⟨by simp, closing, hclosing, congrArg (Span.mk _) hstop⟩⟩
  | text _ => exact List.forall_mem_nil _
  | comment _ => exact List.forall_mem_nil _
  | doctype _ _ => exact List.forall_mem_nil _
  | invalid _ _ => exact List.forall_mem_nil _

end Token

end LiquidTemplate
