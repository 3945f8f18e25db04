import LiquidTemplate.Proofs.Reader.Cuts
import LiquidTemplate.Proofs.Text.Within
import LiquidTemplate.Proofs.Lexeme.Head

/-!
# Scanning heads by offsets

At a character boundary each part of a tag is scanned as it is read from the text there, and its
spans are those of the parts that were read (`pieces_eq`, `value_eq`, `attr_eq`, `tagName_eq`,
`head_eq`); so no cut on the way is out of range. The loops end because reading does.
-/

namespace LiquidTemplate.Reader

open Cursor (Stands)

variable {source t : Text} {i : Nat}

/-- The pieces of a value whose first one starts at `start`, last one first. -/
def pieceParts (start : Nat) (ps : List Piece) : List PieceParts :=
  (Located.locate (fun p => Text.size p.chars) start ps).map PieceParts.ofPiece

theorem pieceParts_cons (start : Nat) (p : Piece) (ps : List Piece) :
    pieceParts start (p :: ps) =
      PieceParts.ofPiece ⟨start, p⟩ :: pieceParts (start + Text.size p.chars) ps := by
  rw [pieceParts, Located.locate_cons, List.map_cons]
  rfl

theorem pieceParts_append (start : Nat) (ps qs : List Piece) :
    pieceParts start (ps ++ qs) =
      pieceParts start ps ++ pieceParts (start + Text.size (ps.flatMap Piece.chars)) qs := by
  rw [pieceParts, Located.locate_append, List.map_append]
  rfl

theorem flushPiece_eq (start : Nat) (ps : List Piece) (run : Text) :
    let textStart := start + Text.size (ps.reverse.flatMap Piece.chars)
    flushPiece (pieceParts start ps.reverse).reverse textStart (textStart + Text.size run) =
      pure (pieceParts start (Piece.flush run ps).reverse).reverse := by
  intro textStart
  cases run with
  | nil => simp [flushPiece, Piece.flush]
  | cons c run =>
    have hlt : textStart < textStart + Text.size (c :: run) := by
      have := c.utf8Size_pos
      rw [Text.size_cons]
      omega
    have hpiece : pieceParts textStart [.text (c :: run).reverse] =
        [⟨false, .ofText textStart (c :: run)⟩] := by
      simp only [pieceParts, Located.locate_cons, Located.locate_nil, List.map_cons, List.map_nil,
        PieceParts.ofPiece, Piece.chars, Span.ofText, Text.size_reverse]
    rw [flushPiece, if_pos hlt, span_ofText, pure_bind, Piece.flush,
      List.reverse_cons (a := Piece.text _), pieceParts_append, List.reverse_append, hpiece]
    rfl

theorem size_flush (ps : List Piece) (run : Text) :
    Text.size ((Piece.flush run ps).reverse.flatMap Piece.chars) =
      Text.size (ps.reverse.flatMap Piece.chars) + Text.size run := by
  rw [Piece.chars_flush, Text.size_append, Text.size_reverse]

theorem pieceParts_drop (start : Nat) (ps : List Piece) (inner : Text) :
    (pieceParts start (Piece.drop inner :: ps).reverse).reverse =
      ⟨true, .ofText (start + Text.size (ps.reverse.flatMap Piece.chars))
        (Delimiter.drop.enclose inner)⟩ :: (pieceParts start ps.reverse).reverse := by
  rw [List.reverse_cons, pieceParts_append, List.reverse_append]
  rfl

theorem pieces_eq {stop : Char → Bool} {start : Nat} (ps : List Piece) (run t : Text)
    (h : Stands source ⟨start + Text.size (ps.reverse.flatMap Piece.chars) + Text.size run, t⟩) :
    let textStart := start + Text.size (ps.reverse.flatMap Piece.chars)
    pieces source stop (pieceParts start ps.reverse).reverse textStart
        (textStart + Text.size run) =
      ofExcept ((Piece.readOnto stop ps run t).map fun r =>
        (pieceParts start r.1, start + Text.size (r.1.flatMap Piece.chars))) := by
  intro textStart
  fun_induction Piece.readOnto stop ps run t with
  | case1 ps run =>
    rw [pieces, rest_eq h, pure_bind]
    simp only [textStart]
    rw [flushPiece_eq, pure_bind, List.reverse_reverse, Nat.add_assoc, ← size_flush]
    rfl
  | case2 ps run rest inner rest' hf ih =>
    have hnext := stands_skip (stands_finish h hf)
    rw [pieces, rest_eq h, pure_bind]
    simp only [textStart]
    rw [Nat.add_assoc start, ← size_flush] at h hnext
    have ih := ih (by simpa [Piece.chars, Nat.add_assoc] using hnext)
    obtain ⟨_, hon⟩ := further_eq (Delimiter.enclose_ne_nil _ _) (stands_finish h hf) rfl
    rw [flushPiece_eq, pure_bind, Nat.add_assoc start, ← size_flush, closedEnd_eq h hf, pure_bind,
      hon, pure_bind, span_ofText, pure_bind, ← pieceParts_drop]
    simpa [Piece.chars, Nat.add_assoc] using ih
  | case3 ps run rest hf =>
    rw [pieces, rest_eq h, pure_bind]
    simp only [textStart]
    rw [flushPiece_eq, pure_bind, closedEnd_eq_throw h hf]
    rfl
  | case4 ps run rest inner rest' hf ih =>
    have hnext := stands_skip (stands_finish h hf)
    rw [pieces, rest_eq h, pure_bind]
    simp only []
    have hgrown : textStart + Text.size ((Delimiter.tag.enclose inner).reverse ++ run) =
        textStart + Text.size run + Text.size (Delimiter.tag.enclose inner) := by
      rw [Text.size_append, Text.size_reverse]
      omega
    obtain ⟨_, hon⟩ := further_eq (Delimiter.enclose_ne_nil _ _) (stands_finish h hf) rfl
    rw [closedEnd_eq h hf, pure_bind, hon, pure_bind]
    rw [← hgrown] at hnext ⊢
    exact ih hnext
  | case5 ps run rest hf =>
    rw [pieces, rest_eq h, pure_bind]
    simp only []
    rw [closedEnd_eq_throw h hf]
    rfl
  | case6 ps run c rest hd ht hstop =>
    rw [pieces, rest_eq h, pure_bind]
    simp only [hstop, if_true, textStart]
    rw [flushPiece_eq, pure_bind, List.reverse_reverse, Nat.add_assoc, ← size_flush]
    rfl
  | case7 ps run c rest hd ht hstop ih =>
    rw [pieces, rest_eq h, pure_bind]
    have hnext := stands_skip (s := [c]) h
    have hgrown : textStart + Text.size (c :: run) = textStart + Text.size run + c.utf8Size := by
      rw [Text.size_cons]
      omega
    obtain ⟨_, hon⟩ : ∃ on, further source (textStart + Text.size run)
        (textStart + Text.size run + c.utf8Size) = pure on :=
      further_eq (s := [c]) (List.cons_ne_nil c _) h rfl
    simp only [hstop, Bool.false_eq_true, if_false]
    rw [hon, pure_bind, ← hgrown]
    exact ih (hgrown ▸ hnext)

theorem pieces_start {stop : Char → Bool} (h : Stands source ⟨i, t⟩) :
    pieces source stop [] i i =
      ofExcept ((Piece.read stop t).map fun r =>
        (pieceParts i r.1, i + Text.size (r.1.flatMap Piece.chars))) :=
  pieces_eq [] [] t h

theorem quoteAt?_eq (h : Stands source ⟨i, t⟩) :
    quoteAt? source i = t.head?.bind Quote.ofChar? := by
  rw [quoteAt?, hasByte_eq h rfl, hasByte_eq h rfl]
  cases t with
  | nil => rfl
  | cons c t => simp [Quote.ofChar?]

theorem size_char (q : Quote) : Text.size [q.char] = 1 := by cases q <;> rfl

theorem value_eq_readQuoted {q : Quote} (h : Stands source ⟨i, q.char :: t⟩) :
    value source i =
      ofExcept ((Value.readQuoted q t).map fun r => ValueParts.ofValue ⟨i, r.1⟩) := by
  have hbehind := stands_skip (s := [q.char]) h
  have hq : quoteAt? source i = some q := by rw [quoteAt?_eq h]; cases q <;> rfl
  have hbyte : q.char.utf8Size = 1 := by cases q <;> rfl
  rw [size_char] at hbehind
  simp only [value, hq, pieces_start hbehind, Value.readQuoted]
  cases hp : Piece.read (· == q.char) t with
  | error flaw => rfl
  | ok found =>
    obtain ⟨ps, rest⟩ := found
    have hstop : Stands source ⟨i + 1 + Text.size (ps.flatMap Piece.chars), rest⟩ := by
      rw [Piece.append_of_read hp] at hbehind
      exact stands_skip hbehind
    simp only [Except.map, ofExcept_ok, pure_bind, hasByte_eq hstop hbyte]
    cases rest with
    | nil => rfl
    | cons d rest' =>
      have hd := Piece.stop_of_read hp
      simp only [beq_iff_eq] at hd
      have hsize : i + 1 + Text.size (ps.flatMap Piece.chars) + 1 =
          i + Text.size (Value.chars ⟨some q, ps⟩) := by
        simp only [Value.chars, Value.content, Quote.chars, Text.size_append, size_char]
        omega
      rw [List.head?_cons, hd, beq_self_eq_true, if_pos rfl, hsize, span_ofText, pure_bind]
      simp only [bind, Except.bind, ofExcept_ok, ValueParts.ofValue, Value.piecesAt, Quote.chars,
        size_char, pieceParts]

theorem value_eq_readUnquoted (hq : t.head?.bind Quote.ofChar? = none) (h : Stands source ⟨i, t⟩) :
    value source i =
      ofExcept ((Value.readUnquoted t).map fun r => ValueParts.ofValue ⟨i, r.1⟩) := by
  simp only [value, quoteAt?_eq h, hq, pieces_start h, Value.readUnquoted]
  cases hp : Piece.read (fun c => !Value.isUnquotedChar c) t with
  | error flaw => rfl
  | ok found =>
    obtain ⟨ps, rest⟩ := found
    simp only [Except.map, ofExcept_ok, pure_bind]
    cases ps with
    | nil =>
      rw [if_pos (show i + Text.size (([] : List Piece).flatMap Piece.chars) = i from rfl)]
      rfl
    | cons p ps =>
      have hp := Piece.chars_ne_nil_of_read hp p List.mem_cons_self
      have hlt : 0 < Text.size ((p :: ps).flatMap Piece.chars) := by
        have := Text.size_pos hp
        rw [List.flatMap_cons, Text.size_append]
        omega
      rw [if_neg (by omega), span_ofText, pure_bind]
      simp [bind, Except.bind, ofExcept_ok, ValueParts.ofValue, Value.piecesAt, Quote.chars,
        pieceParts, Value.chars, Value.content]

theorem value_eq (h : Stands source ⟨i, t⟩) :
    value source i = ofExcept ((Value.read t).map fun r => ValueParts.ofValue ⟨i, r.1⟩) := by
  cases t with
  | nil =>
    have hp : ∀ stop, Piece.read stop [] = .ok ([], []) := fun stop => by
      rw [Piece.read, Piece.readOnto]
      rfl
    rw [value_eq_readUnquoted rfl h, Value.readUnquoted, hp]
    rfl
  | cons c rest =>
    cases hq : Quote.ofChar? c with
    | some q =>
      rw [← Quote.char_of_ofChar? hq] at h
      simp only [Value.read, hq]
      exact value_eq_readQuoted h
    | none =>
      simp only [Value.read, hq]
      exact value_eq_readUnquoted hq h

theorem attr_eq (gap : Text) (h : Stands source ⟨i, t⟩) :
    attr source i =
      ofExcept ((Attribute.read gap t).map fun r => AttributeParts.ofAttribute ⟨i, r.1⟩) := by
  have hname := stands_run h Attribute.isNameChar
  have hblanks := stands_blanks hname
  rw [attr, runEnd_eq h, pure_bind, span_ofText, pure_bind]
  simp only [Span.ofText]
  rw [blanksEnd_eq hname, pure_bind, hasByte_eq hblanks rfl]
  simp only [Attribute.read]
  split
  · next hequals =>
    obtain ⟨rest, hrest⟩ := List.head?_eq_some_iff.1 (beq_iff_eq.1 hequals)
    rw [hrest] at hblanks ⊢
    have hbehind := stands_skip (s := ['=']) hblanks
    have hvalue := stands_blanks hbehind
    rw [show Text.size ['='] = 1 from rfl] at hbehind hvalue
    rw [blanksEnd_eq hbehind, pure_bind, value_eq hvalue]
    cases hv : Value.read (Text.trimStart rest) with
    | error flaw => simp only [hv]; rfl
    | ok found =>
      obtain ⟨v, rest'⟩ := found
      let a : Attribute := ⟨gap, t.takeWhile Attribute.isNameChar,
        some ⟨Text.leadingBlanks (t.dropWhile Attribute.isNameChar), Text.leadingBlanks rest, v⟩⟩
      have hstop : (ValueParts.ofValue ⟨i + Text.size (t.takeWhile Attribute.isNameChar) +
          Text.size (Text.leadingBlanks (t.dropWhile Attribute.isNameChar)) + 1 +
          Text.size (Text.leadingBlanks rest), v⟩).whole.stop = i + Text.size a.body := by
        simp only [a, ValueParts.ofValue, Span.ofText, Attribute.body, Attribute.assigned,
          Assignment.chars, Text.size_append, Text.size_cons, Text.size_nil]
        have : '='.utf8Size = 1 := rfl
        omega
      simp only [hv, Except.map, ofExcept_ok, pure_bind]
      rw [hstop, span_ofText, pure_bind]
      rfl
  · next hequals =>
    have hplain : ∀ rest, Text.trimStart (t.dropWhile Attribute.isNameChar) ≠ '=' :: rest := by
      intro rest hrest
      rw [hrest] at hequals
      exact hequals rfl
    split
    · next rest hrest => exact absurd hrest (hplain rest)
    · simp [Except.map, AttributeParts.ofAttribute, Attribute.body, Attribute.assigned,
        Attribute.valueAt?, Span.ofText]

theorem tagName_eq (hs : Opening.startsName t = true) (h : Stands source ⟨i, t⟩) :
    tagName source i = ofExcept ((TagName.read t).map fun r => NameParts.ofName i r.1) := by
  rw [tagName, rest_eq h, pure_bind]
  rcases Opening.startsName_iff.1 hs with ⟨rest, rfl⟩ | ⟨c, rest, rfl, hc⟩
  · have hdrop : startsWith Delimiter.drop.opening ('{' :: '{' :: rest) = true :=
      startsWith_iff.2 ⟨rest, rfl⟩
    rw [if_pos hdrop]
    cases hf : Delimiter.drop.finish? rest with
    | none =>
      rw [closedEnd_eq_throw h hf]
      simp only [TagName.read, hf]
      rfl
    | some found =>
      obtain ⟨inner, rest'⟩ := found
      rw [closedEnd_eq h hf, pure_bind, span_ofText, pure_bind, TagName.read_drop hf]
      rfl
  · have hne : c ≠ '{' := by rintro rfl; cases hc
    have hdrop : ¬ startsWith Delimiter.drop.opening (c :: rest) = true := by
      rw [startsWith_iff]
      exact fun hdrop => hne (List.cons_prefix_cons.1 hdrop).1.symm
    have hpos : 0 < Text.size ((c :: rest).takeWhile TagName.isNameChar) := by
      rw [List.takeWhile_cons_of_pos (TagName.isNameChar_of_isAlpha hc).1]
      exact Text.size_pos (by simp)
    have hguard : (guard (i < i + Text.size ((c :: rest).takeWhile TagName.isNameChar)) :
        Option Unit) = some () := if_pos (by omega)
    rw [if_neg hdrop, runEnd_eq h, pure_bind, hguard, need_some, pure_bind, span_ofText, pure_bind,
      TagName.read_fixed hne]
    rfl

/-- The parts of attributes that stand one behind the other from `start` on, blanks included. -/
def attributeParts (start : Nat) (as : List Attribute) : List AttributeParts :=
  (Located.locate (fun a => Text.size a.chars) start as).map fun a =>
    AttributeParts.ofAttribute ⟨a.start + Text.size a.item.gap, a.item⟩

theorem attributeParts_cons (start : Nat) (a : Attribute) (as : List Attribute) :
    attributeParts start (a :: as) =
      AttributeParts.ofAttribute ⟨start + Text.size a.gap, a⟩ ::
        attributeParts (start + Text.size a.chars) as := by
  rw [attributeParts, Located.locate_cons, List.map_cons]
  rfl

theorem attributeParts_append (start : Nat) (as bs : List Attribute) :
    attributeParts start (as ++ bs) =
      attributeParts start as ++
        attributeParts (start + Text.size (as.flatMap Attribute.chars)) bs := by
  rw [attributeParts, Located.locate_append, List.map_append]
  rfl

theorem ofHead_eq (start : Nat) (h : Head) :
    HeadParts.ofHead start h =
      ⟨.ofText start h.chars, .ofName (start + 1) h.name,
        attributeParts (NameParts.ofName (start + 1) h.name).whole.stop h.attributes,
        h.selfClosing⟩ := by
  rw [HeadParts.ofHead, Head.attributesAt, List.map_map]
  rfl

theorem stop_head (start : Nat) (h : Head) :
    (NameParts.ofName (start + 1) h.name).whole.stop +
      Text.size (h.attributes.flatMap Attribute.chars) + Text.size h.gap + Text.size h.closing =
        start + Text.size h.chars := by
  have : '<'.utf8Size = 1 := rfl
  simp only [NameParts.ofName, Span.ofText, Head.chars, Head.tail, Text.size_append, Text.size_cons]
  omega

/-- The end of a tag completes its head. -/
theorem head_close (start : Nat) (name : TagName) (found : List Attribute) (gap : Text)
    (selfClosing : Bool) :
    let nameParts := NameParts.ofName (start + 1) name
    let attributes := attributeParts nameParts.whole.stop found.reverse
    (do return ⟨← span start (nameParts.whole.stop +
          Text.size (found.reverse.flatMap Attribute.chars) + Text.size gap +
            (if selfClosing then 2 else 1)),
        nameParts, attributes.reverse.reverse, selfClosing⟩ : Read HeadParts) =
      pure (.ofHead start ⟨name, found.reverse, gap, selfClosing⟩) := by
  intro nameParts attributes
  have hclosing : Text.size (Head.closing ⟨name, found.reverse, gap, selfClosing⟩) =
      if selfClosing then 2 else 1 := by cases selfClosing <;> rfl
  have hstop := stop_head start ⟨name, found.reverse, gap, selfClosing⟩
  rw [hclosing] at hstop
  rw [hstop, span_ofText, pure_bind, List.reverse_reverse, ofHead_eq]

theorem attributeParts_snoc (start : Nat) (found : List Attribute) (a : Attribute) :
    (attributeParts start (a :: found).reverse).reverse =
      AttributeParts.ofAttribute
        ⟨start + Text.size (found.reverse.flatMap Attribute.chars) + Text.size a.gap, a⟩ ::
          (attributeParts start found.reverse).reverse := by
  rw [List.reverse_cons, attributeParts_append, List.reverse_append]
  rfl

theorem headFrom_eq {start : Nat} {name : TagName} (found : List Attribute) (t : Text)
    (h : Stands source ⟨(NameParts.ofName (start + 1) name).whole.stop +
        Text.size (found.reverse.flatMap Attribute.chars), t⟩) :
    let nameParts := NameParts.ofName (start + 1) name
    headFrom source start nameParts (attributeParts nameParts.whole.stop found.reverse).reverse
        (nameParts.whole.stop + Text.size (found.reverse.flatMap Attribute.chars)) =
      ofExcept ((Head.readOnto name found t).map fun r => HeadParts.ofHead start r.1) := by
  intro nameParts
  have hblanks := stands_blanks h
  fun_induction Head.readOnto name found t with
  | case1 found t ht =>
    rw [headFrom, blanksEnd_eq h, pure_bind, rest_eq hblanks, pure_bind, ht]
    rfl
  | case2 found t gap rest ht =>
    rw [headFrom, blanksEnd_eq h, pure_bind, rest_eq hblanks, pure_bind, ht]
    exact head_close start name found gap false
  | case3 found t gap rest ht =>
    rw [headFrom, blanksEnd_eq h, pure_bind, rest_eq hblanks, pure_bind, ht]
    exact head_close start name found gap true
  | case4 found t rest ht =>
    rw [headFrom, blanksEnd_eq h, pure_bind, rest_eq hblanks, pure_bind, ht]
    rfl
  | case5 found t rest ht =>
    rw [headFrom, blanksEnd_eq h, pure_bind, rest_eq hblanks, pure_bind, ht]
    rfl
  | case6 found t gap c rest h₁ h₂ h₃ h₄ ht hc a rest' ha ih =>
    obtain ⟨hgap, -, hbody⟩ := Attribute.eq_of_read ha
    rw [headFrom, blanksEnd_eq h, pure_bind, rest_eq hblanks, pure_bind, ht]
    rw [ht] at hblanks
    simp only [hc, if_true]
    rw [attr_eq gap hblanks, ha]
    have hgrown : (NameParts.ofName (start + 1) name).whole.stop +
        Text.size ((a :: found).reverse.flatMap Attribute.chars) =
          (NameParts.ofName (start + 1) name).whole.stop +
            Text.size (found.reverse.flatMap Attribute.chars) + Text.size gap +
            Text.size a.body := by
      simp only [List.reverse_cons, List.flatMap_append, List.flatMap_cons, List.flatMap_nil,
        List.append_nil, Attribute.chars, hgap, Text.size_append]
      omega
    rw [hbody] at hblanks
    have hnext := stands_skip hblanks
    have ih := ih (hgrown ▸ hnext) (stands_blanks (hgrown ▸ hnext))
    have hbehind : gap ++ a.body ++ rest' = t := by
      rw [List.append_assoc, ← hbody, ← ht, Text.leadingBlanks_append_trimStart]
    have hmore : gap ++ a.body ≠ [] := fun hnil => by
      have hless := Attribute.length_lt_of_read hc ha
      rw [hbody, (List.append_eq_nil_iff.1 hnil).2] at hless
      exact Nat.lt_irrefl _ hless
    let i := nameParts.whole.stop + Text.size (found.reverse.flatMap Attribute.chars)
    obtain ⟨_, hon⟩ : ∃ on, further source i
        (AttributeParts.ofAttribute ⟨i + Text.size gap, a⟩).whole.stop = pure on :=
      further_eq hmore (hbehind ▸ h) (by rw [Text.size_append, ← Nat.add_assoc]; rfl)
    simp only [Except.map, ofExcept_ok, pure_bind]
    rw [hon, pure_bind]
    rw [attributeParts_snoc, hgrown, hgap] at ih
    exact ih
  | case7 found t gap c rest h₁ h₂ h₃ h₄ ht hc flaw ha =>
    rw [headFrom, blanksEnd_eq h, pure_bind, rest_eq hblanks, pure_bind, ht]
    rw [ht] at hblanks
    simp only [hc, if_true]
    rw [attr_eq gap hblanks, ha]
    rfl
  | case8 found t c rest h₁ h₂ h₃ h₄ ht hc =>
    rw [headFrom, blanksEnd_eq h, pure_bind, rest_eq hblanks, pure_bind, ht]
    simp only [hc]
    rfl

theorem head_eq (hs : Opening.startsName t = true) (h : Stands source ⟨i, '<' :: t⟩) :
    head source i = ofExcept ((Head.read t).map fun r => HeadParts.ofHead i r.1) := by
  have hname := stands_skip (s := ['<']) h
  rw [head, show i + 1 = i + Text.size ['<'] from rfl, tagName_eq hs hname, Head.read]
  cases hn : TagName.read t with
  | error flaw => rfl
  | ok found =>
    obtain ⟨name, rest⟩ := found
    have hrest : Stands source ⟨(NameParts.ofName (i + 1) name).whole.stop, rest⟩ := by
      rw [TagName.append_of_read hn] at hname
      exact stands_skip hname
    exact headFrom_eq [] rest hrest

end LiquidTemplate.Reader
