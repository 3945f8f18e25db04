import LiquidTemplate.Proofs.Coverage.Rewriting
import LiquidTemplate.Proofs.Trim.Replaced

/-!
# The nodes of a token in which a construct is replaced

A rewriting that changes the trim markers of one construct, and moves all that is behind it, fits
the token in which that construct is replaced by the same markup with those markers
(`Lexeme.Replaced.rewritten`): what stands in front of the construct in the token stays where it is,
what stands behind is moved, and the nodes around it grow.
-/

namespace LiquidTemplate

open LiquidTemplate.Tree (InOrder)

namespace Rewriting

/-- The rewriting puts `inner'` in place of what the construct at `start` encloses. -/
structure Replaces (w : Rewriting) (d : Delimiter) (start n : Nat) (inner inner' : Text) :
    Prop where
  size : Text.size (d.enclose inner') = Text.size (d.enclose inner) + n
  text : (Markup.ofInner inner').text = (Markup.ofInner inner).text
  before : ∀ x, w.Shifts 0 x start
  after : ∀ x, w.Shifts n (start + Text.size (d.enclose inner)) x
  opening : w.opening start (Markup.ofInner inner).trims = (Markup.ofInner inner').trims
  closing : w.closing (start + Text.size (d.enclose inner)) (Markup.ofInner inner).trims =
    (Markup.ofInner inner').trims
  body : ∀ x t, w.body x t = t

namespace Replaces

variable {w : Rewriting} {d : Delimiter} {start n : Nat} {inner inner' : Text}

theorem move_before (h : w.Replaces d start n inner inner') {x : Nat} (hx : x ≤ start) :
    w.move x = x :=
  (h.before x).move x (Nat.le_refl _) hx

theorem move_after (h : w.Replaces d start n inner inner') {x : Nat}
    (hx : start + Text.size (d.enclose inner) ≤ x) : w.move x = x + n :=
  (h.after x).move x hx (Nat.le_refl _)

/-- What stands around the construct grows. -/
theorem span (h : w.Replaces d start n inner inner') {front : Text} {x : Nat}
    (hx : x + Text.size front = start) (back : Text) :
    Span.ofText x (front ++ d.enclose inner' ++ back) =
      w.span (.ofText x (front ++ d.enclose inner ++ back)) := by
  have hsize := h.size
  simp only [Span.ofText, Rewriting.span, Text.size_append, Span.mk.injEq]
  rw [h.move_before (by omega), h.move_after (by omega)]
  omega

theorem tag (h : w.Replaces d start n inner inner') :
    Tag.ofInner inner' = w.tag start (Tag.ofInner inner) := by
  rw [Tag.ofInner_eq_of_text h.text, ← h.opening]
  rfl

theorem drop (h : w.Replaces .drop start n inner inner') (role : Role) :
    w.Trees [(DropNode.ofInner start inner).outline role]
      [(DropNode.ofInner start inner').outline role] := by
  have hspan : Span.ofText start (Delimiter.drop.enclose inner') =
      w.span (.ofText start (Delimiter.drop.enclose inner)) := by
    have hspan : Span.ofText start ([] ++ _ ++ []) = _ := h.span (Nat.add_zero start) []
    rwa [List.append_nil, List.append_nil] at hspan
  have hmarkup : Markup.ofInner inner' =
      ⟨w.opening start (Markup.ofInner inner).trims, (Markup.ofInner inner).text⟩ := by
    rw [h.opening, ← h.text]
  refine .node ?_ (rfl : w.Trees [] [])
  simp only [DropNode.ofInner, hmarkup, hspan]
  rfl

/-- Trees of located items, one of which grows with the construct in it. -/
theorem trees_locate (h : w.Replaces d start n inner inner') {α : Type} {chars : α → Text}
    {f : Located α → Tree Entry} (hf : ∀ k x, f (x.shift k) = (f x).map (Entry.shift k))
    {xs ys : List α} {a a' : α} {first : Nat}
    (hxs : ∀ x, InOrder x (x + Text.size (xs.flatMap chars))
      ((Located.locate (fun x => Text.size (chars x)) x xs).map f))
    (hys : ∀ x, InOrder x (x + Text.size (ys.flatMap chars))
      ((Located.locate (fun x => Text.size (chars x)) x ys).map f))
    (hstart : first + Text.size (xs.flatMap chars) ≤ start)
    (hstop : start + Text.size (d.enclose inner) ≤
      first + Text.size (xs.flatMap chars) + Text.size (chars a))
    (hsize : Text.size (chars a') = Text.size (chars a) + n)
    (ha : w.Trees [f ⟨first + Text.size (xs.flatMap chars), a⟩]
      [f ⟨first + Text.size (xs.flatMap chars), a'⟩]) :
    w.Trees ((Located.locate (fun x => Text.size (chars x)) first (xs ++ a :: ys)).map f)
      ((Located.locate (fun x => Text.size (chars x)) first (xs ++ a' :: ys)).map f) := by
  simp only [Located.locate_append, Located.locate_cons, List.map_append, List.map_cons, hsize,
    ← Nat.add_assoc _ (Text.size (chars a)) n]
  have hbefore := ((h.before first).mono (Nat.le_refl _) hstart).trees_locate (hf 0) (hxs first)
  have hafter := ((h.after _).mono hstop (Nat.le_refl _)).trees_locate (hf n) (hys _)
  exact hbefore.append (ha.append hafter)

end Replaces

end Rewriting

/-! ## Heads -/

theorem PartNode.outline_ofPiece_shift (k : Nat) (p : Located Piece) :
    (ofPiece (p.shift k)).outline = (ofPiece p).outline.map (Entry.shift k) := by
  rw [ofPiece_shift, outline_shift]

theorem AttributeNode.outline_ofAttribute_shift (k : Nat) (a : Located Attribute) :
    (ofAttribute ⟨(a.shift k).start + Text.size a.item.gap, a.item⟩).outline =
      (ofAttribute ⟨a.start + Text.size a.item.gap, a.item⟩).outline.map (Entry.shift k) := by
  rw [← outline_shift, ← ofAttribute_shift]
  simp only [Located.shift, Nat.add_right_comm]

section Heads

variable {w : Rewriting} {start n : Nat} {inner inner' front : Text}

theorem Attribute.Replaced.trees {a a' : Attribute} (hr : a.Replaced inner inner' front a')
    (hw : w.Replaces .drop (start + Text.size front) n inner inner') (h : a.Solid) :
    w.Trees [(AttributeNode.ofAttribute ⟨start + Text.size a.gap, a⟩).outline]
      [(AttributeNode.ofAttribute ⟨start + Text.size a'.gap, a'⟩).outline] := by
  cases hr with
  | value gap name before after quote ps qs =>
    have hsolid := h.2 _ rfl
    rw [List.forall_mem_append, List.forall_mem_cons] at hsolid
    obtain ⟨hps, -, hqs⟩ := hsolid
    have hbody (i : Text) : body ⟨gap, name, some ⟨before, after, quote, ps ++ .drop i :: qs⟩⟩ =
        name ++ before ++ ['='] ++ after ++ Quote.chars quote ++ ps.flatMap Piece.chars ++
          Delimiter.drop.enclose i ++ (qs.flatMap Piece.chars ++ Quote.chars quote) := by
      simp [body, assigned, Assignment.chars, Value.chars, Value.content, Piece.chars]
    rw [Attribute.start_drop] at hw
    refine .node ?_ ?_
    · simp only [AttributeNode.ofAttribute, hbody]
      rw [hw.span (by simp only [Text.size_append, Nat.add_assoc]; rfl)]
      rfl
    · simp only [AttributeNode.ofAttribute, Attribute.valueAt?, Option.map_some, Option.getD_some,
        ValueNode.ofValue, Value.piecesAt, List.map_map]
      exact hw.trees_locate PartNode.outline_ofPiece_shift (PartNode.inOrder_locate hps)
        (PartNode.inOrder_locate hqs) (Nat.le_refl _) (Nat.le_refl _) hw.size (hw.drop .part)

/-- How much longer an item is that the construct stands in. -/
theorem Attribute.Replaced.size_chars {a a' : Attribute} (hr : a.Replaced inner inner' front a')
    (hw : w.Replaces .drop start n inner inner') :
    Text.size a'.chars = Text.size a.chars + n ∧
      Text.size front + Text.size (Delimiter.drop.enclose inner) ≤ Text.size a.chars := by
  obtain ⟨back, hchars, hchars'⟩ := hr.chars
  have hsize := hw.size
  rw [hchars, hchars']
  simp only [Text.size_append]
  omega

/-- The key of a name depends on the markup only. -/
theorem TagName.key_dynamic_eq (h : (Markup.ofInner inner').text = (Markup.ofInner inner).text) :
    (dynamic inner').key = (dynamic inner).key := by
  rw [key, key, Markup.normalized, Markup.normalized, h]

/-- The head of an element with the construct in it. -/
theorem Head.Replaced.rewritten {h h' : Head} {rest : Text} (hr : h.Replaced inner inner' front h')
    (hw : w.Replaces .drop (start + Text.size front) n inner inner') (hread : h.ReadBefore rest) :
    Opener.Rewritten w (.element start h) (.element start h') := by
  have hsolid := Attribute.solid_of_allReadBefore hread.2.1
  have hmove : start = w.move start := (hw.move_before (Nat.le_add_right _ _)).symm
  cases hr with
  | name as gap sc =>
    refine .element hmove (TagName.key_dynamic_eq hw.text) rfl (hw.drop .name) ?_
    rw [AttributeNode.outline_ofHead, AttributeNode.outline_ofHead]
    have hattributes := (hw.after _).trees_locate (AttributeNode.outline_ofAttribute_shift n)
      (AttributeNode.inOrder_locate hsolid _)
    have hsize := hw.size
    simp only [Head.nameSpan, Span.ofText, TagName.chars, hsize, ← Nat.add_assoc]
    exact hattributes
  | @value name as bs gap sc front a a' ha =>
    rw [List.forall_mem_append, List.forall_mem_cons] at hsolid
    obtain ⟨has, hsolid, hbs⟩ := hsolid
    rw [Head.start_attribute] at hw
    have hsize := ha.size_chars hw
    refine .element hmove rfl rfl ?_ ?_
    · have hname := ElementName.inOrder_ofHead start ⟨name, as ++ a :: bs, gap, sc⟩
      have hbefore := (hw.before start).mono (Nat.le_refl _)
        (show start + 1 + Text.size name.chars ≤ _ by omega)
      have htrees := hbefore.trees hname
      rw [← ElementName.outline_shift, ← ElementName.ofHead_add] at htrees
      exact htrees
    · rw [AttributeNode.outline_ofHead, AttributeNode.outline_ofHead]
      refine hw.trees_locate AttributeNode.outline_ofAttribute_shift
        (AttributeNode.inOrder_locate has) (AttributeNode.inOrder_locate hbs)
        (Nat.le_add_right _ _) ?_ hsize.1 (ha.trees hw hsolid)
      rw [Nat.add_assoc]
      exact Nat.add_le_add_left hsize.2 _

theorem Head.Replaced.same {h h' : Head} (hr : h.Replaced inner inner' front h') :
    h'.voidName? = h.voidName? ∧ h'.selfClosing = h.selfClosing := by
  cases hr <;> exact ⟨rfl, rfl⟩

/-- The name of a raw element is written out. -/
theorem Head.Replaced.name_eq {h h' : Head} {name : Text} (hr : h.Replaced inner inner' front h')
    (hraw : h.rawName? = some name) : h'.name = h.name := by
  cases hr with
  | name as gap sc => cases hraw
  | value name as bs gap sc ha => rfl

end Heads

/-! ## Tokens -/

section Tokens

variable {w : Rewriting} {d : Delimiter} {n : Nat} {inner inner' front : Text} {t : Token}
  {l' : Lexeme}

theorem Token.leafNode?_void {head : Head} {name : Text} (start : Nat)
    (hv : head.voidName? = some name) :
    leafNode? ⟨start, .startTag head⟩ =
      some (.voidElement name (AttributeNode.ofHead start head) (.ofText start head.chars)) := by
  simp only [leafNode?, hv]

theorem Token.leafNode?_selfClosing {head : Head} (start : Nat) (hv : head.voidName? = none)
    (hs : head.selfClosing = true) :
    leafNode? ⟨start, .startTag head⟩ =
      some (.selfClosingElement (.ofHead start head) (AttributeNode.ofHead start head)
        (.ofText start head.chars)) := by
  simp only [leafNode?, hv, hs, if_true]

theorem Head.Replaced.doesSame {h h' : Head} {rest : Text} {start : Nat}
    (hr : h.Replaced inner inner' front h') (hread : h.ReadBefore rest)
    (hw : w.Replaces .drop (start + Text.size front) n inner inner') :
    Token.DoesSame w ⟨start, .startTag h⟩ ⟨start, .startTag h'⟩ := by
  have hspan : Span.ofText start h'.chars = w.span (.ofText start h.chars) := by
    obtain ⟨back, hchars, hchars'⟩ := hr.chars
    rw [hchars, hchars', hw.span rfl]
  have hopener := hr.rewritten hw hread
  obtain ⟨hvoid, hclosing⟩ := hr.same
  cases hopener with
  | element hmove hkey hfixed hname hattributes =>
    cases hv : h.voidName? with
    | some name =>
      refine .leaf (Token.leafNode?_void start hv)
        (Token.leafNode?_void start (hvoid.trans hv)) ?_
      exact .node (congrArg (Entry.mk .child (.voidElement name)) hspan) hattributes
    | none =>
      cases hs : h.selfClosing with
      | true =>
        refine .leaf (Token.leafNode?_selfClosing start hv hs)
          (Token.leafNode?_selfClosing start (hvoid.trans hv) (hclosing.trans hs)) ?_
        refine .node ?_ (hname.append hattributes)
        rw [hspan, hfixed]
        rfl
      | false =>
        exact .startTag rfl (by simp [Head.opens, hv, hs]) rfl
          (by simp [Head.opens, hvoid, hclosing, hv, hs])
          (.element hmove hkey hfixed hname hattributes)

theorem Token.doesSame_rawTag {start : Nat} {opening opening' body closing closing' : Text}
    (hspan : span ⟨start, .rawTag opening' body closing'⟩ =
      w.span (span ⟨start, .rawTag opening body closing⟩))
    (htag : Tag.ofInner opening' = w.tag start (.ofInner opening))
    (hbody : w.body start body = body)
    (hclosing : (Tag.ofInner closing').trims =
      w.closing (stop ⟨start, .rawTag opening body closing⟩) (Tag.ofInner closing).trims) :
    DoesSame w ⟨start, .rawTag opening body closing⟩ ⟨start, .rawTag opening' body closing'⟩ := by
  refine .leaf rfl rfl (.node ?_ (rfl : w.Trees [] []))
  simp only [hspan, htag, hclosing]
  simp only [Rewriting.entry, Rewriting.kind, span, hbody]

theorem Lexeme.Replaced.span (hr : t.item.Replaced inner inner' d front l')
    (hw : w.Replaces d (t.start + Text.size front) n inner inner') :
    Token.span ⟨t.start, l'⟩ = w.span t.span := by
  obtain ⟨back, hchars, hchars'⟩ := hr.chars
  have hspan := hw.span rfl back
  rwa [← hchars, ← hchars'] at hspan

theorem Lexeme.Replaced.doesSame (hr : t.item.Replaced inner inner' d front l')
    (hw : w.Replaces d (t.start + Text.size front) n inner inner') (hread : t.item.Read) :
    t.DoesSame w ⟨t.start, l'⟩ := by
  have hspan := hr.span hw
  have hname : (Tag.ofInner inner').name = (Tag.ofInner inner).name := by
    rw [hw.tag, Rewriting.name_tag]
  obtain ⟨start, item⟩ := t
  dsimp only at hr hread
  cases hr with
  | drop => exact .leaf rfl rfl (hw.drop .child)
  | tag =>
    cases hrole : Keyword.roleOf (Tag.ofInner inner).name with
    | inline =>
      refine .leaf (if_pos hrole) (if_pos (hname ▸ hrole)) (.node ?_ (rfl : w.Trees [] []))
      rw [hspan, hw.tag]
      rfl
    | opensBlock => exact .opening rfl rfl (.inl hrole) hw.tag
    | startsBranch => exact .opening rfl rfl (.inr hrole) hw.tag
    | closes block =>
      exact .closing rfl rfl hrole hname hw.closing.symm
  | opening body closing =>
    obtain ⟨hstop, -, -⟩ := Token.stop_rawTag start inner body closing
    exact Token.doesSame_rawTag hspan hw.tag (hw.body start body)
      ((hw.after _).closing _ hstop (Nat.le_refl _) _).symm
  | closing opening body =>
    obtain ⟨-, hstart, hstop⟩ := Token.stop_rawTag start opening body inner
    refine Token.doesSame_rawTag hspan
      ((hw.before start).tag (Nat.le_refl _) hstart _).symm (hw.body start body) ?_
    rw [hstop]
    exact hw.closing.symm
  | startTag hh =>
    obtain ⟨rest, hhead, -⟩ := hread rfl
    exact hh.doesSame hhead hw
  | rawElement body closeName closeRest hh =>
    obtain ⟨rest, hhead, name, hraw, -⟩ := hread rfl
    have hopener := hh.rewritten hw hhead
    cases hopener with
    | element _ _ _ _ hattributes =>
      refine .leaf rfl rfl (.node ?_ hattributes)
      rw [hspan, hh.name_eq hraw]
      simp only [Rewriting.entry, Rewriting.kind, hw.body]
  | endTag gap => exact .endTag rfl rfl (TagName.key_dynamic_eq hw.text)

/-- The token in which a construct is replaced fits the rewriting that puts it there. -/
theorem Lexeme.Replaced.rewritten (hr : t.item.Replaced inner inner' d front l')
    (hw : w.Replaces d (t.start + Text.size front) n inner inner') (hread : t.item.Read) :
    t.Rewritten w ⟨t.start, l'⟩ where
  start := (hw.move_before (Nat.le_add_right _ _)).symm
  stop := congrArg Span.stop (hr.span hw)
  doesSame := hr.doesSame hw hread

end Tokens

end LiquidTemplate
