import LiquidTemplate.Proofs.Lexeme.Atoms
import LiquidTemplate.Proofs.Token.Contiguous
import LiquidTemplate.Proofs.Token.Parts

/-!
# The grammar of constructs

What is read as a name, an attribute, a head or a construct is said here without reading: how it is
made up, and what may follow it. Each is read exactly where one stands (`TagName.read_eq_ok_iff`,
`Attribute.read_eq_ok_iff`, `Head.read_eq_ok_iff`, `Lexeme.next?_chars_iff`), so what the grammar
keeps is read as well.
-/

namespace LiquidTemplate

/-! ## Names -/

namespace TagName

/-- The name is one in front of this text: a drop, or a letter and a maximal run behind it. -/
def ReadBefore (rest : Text) : TagName → Prop
  | fixed name => (∃ c run, name = c :: run ∧ c.isAlpha = true) ∧
      (∀ c ∈ name, isNameChar c = true) ∧ Text.Stops isNameChar rest
  | dynamic inner => Delimiter.drop.Closes inner

theorem startsName_of_readBefore {rest : Text} {name : TagName} (h : name.ReadBefore rest) :
    Opening.startsName (name.chars ++ rest) = true := by
  cases name with
  | fixed name =>
    obtain ⟨⟨c, run, rfl, hc⟩, -⟩ := h
    exact Opening.startsName_iff.2 (.inr ⟨c, run ++ rest, rfl, hc⟩)
  | dynamic inner => rfl

/-- Where a name can begin, it is read exactly where one stands. -/
theorem read_eq_ok_iff {t rest : Text} {name : TagName} :
    Opening.startsName t = true ∧ read t = .ok (name, rest) ↔
      t = name.chars ++ rest ∧ name.ReadBefore rest := by
  constructor
  · rintro ⟨hs, h⟩
    refine ⟨append_of_read h, ?_⟩
    rcases Opening.startsName_iff.1 hs with ⟨r, rfl⟩ | ⟨c, r, rfl, hc⟩
    · simp only [read] at h
      split at h
      · next hf => cases h; exact Delimiter.closes_of_finish? hf
      · cases h
    · obtain ⟨hname, hbrace⟩ := isNameChar_of_isAlpha hc
      rw [read_fixed hbrace] at h
      cases h
      refine ⟨⟨c, r.takeWhile isNameChar, ?_, hc⟩, Text.mem_takeWhile_imp,
        Text.stops_dropWhile isNameChar _⟩
      rw [List.takeWhile_cons, if_pos hname]
  · rintro ⟨rfl, h⟩
    refine ⟨startsName_of_readBefore h, ?_⟩
    cases name with
    | fixed name =>
      obtain ⟨⟨c, run, rfl, hc⟩, hrun, hrest⟩ := h
      exact read_run hc (List.forall_mem_cons.1 hrun).2 hrest
    | dynamic inner =>
      simpa [chars, Delimiter.enclose, Delimiter.opening] using
        read_drop (Delimiter.finish?_append h rest)

end TagName

/-! ## Attributes -/

namespace Attribute

/-- The attribute is one in front of this text: its name is a maximal run, and it has a value if an
equals sign follows. -/
def ReadBefore (rest : Text) (a : Attribute) : Prop :=
  (∀ c ∈ a.name, isNameChar c = true) ∧
  match a.assignment with
  | none => Text.Stops isNameChar rest ∧ Text.Stops (· == '=') (Text.trimStart rest)
  | some s => Text.AllBlank s.before ∧ Text.AllBlank s.after ∧ s.value.ReadBefore rest

/-- An attribute is read exactly where one stands. -/
theorem read_eq_ok_iff {gap t rest : Text} {a : Attribute} :
    read gap t = .ok (a, rest) ↔ a.gap = gap ∧ t = a.body ++ rest ∧ a.ReadBefore rest := by
  constructor
  · intro h
    obtain ⟨hgap, hname, ht⟩ := eq_of_read h
    refine ⟨hgap, ht, by rw [hname]; exact Text.mem_takeWhile_imp, ?_⟩
    simp only [read] at h
    split at h
    · split at h
      · next hv =>
        cases h
        exact ⟨Text.allBlank_leadingBlanks _, Text.allBlank_leadingBlanks _,
          (Value.read_eq_ok_iff.1 hv).2⟩
      · cases h
    · next hne =>
      cases h
      refine ⟨Text.stops_dropWhile isNameChar t, fun c hc => ?_⟩
      obtain ⟨more, hmore⟩ := List.head?_eq_some_iff.1 hc
      simp only [beq_eq_false_iff_ne]
      rintro rfl
      exact hne more hmore
  · obtain ⟨gap', name, assignment⟩ := a
    rintro ⟨rfl, rfl, hname, h⟩
    cases assignment with
    | none => simpa [body, assigned] using read_plain hname h.1 h.2
    | some s =>
      obtain ⟨hbefore, hafter, hv⟩ := h
      obtain ⟨c, t, ht, hblank, -⟩ := Value.exists_cons_of_readBefore hv
      have hread := read_assigned gap' hname hbefore hafter
        (by rw [ht]; exact Text.stops_cons.2 hblank) (Value.read_eq_ok_iff.2 ⟨rfl, hv⟩)
      simpa [body, assigned, Assignment.chars] using hread

/-- The attributes of a tag in front of this text, each with blanks in front and a name that does
not begin with Liquid markup. -/
def AllReadBefore (rest : Text) : List Attribute → Prop
  | [] => True
  | a :: as =>
    Text.AllBlank a.gap ∧ a.name ≠ [] ∧
      opensLiquid (a.body ++ (as.flatMap chars ++ rest)) = false ∧
      a.ReadBefore (as.flatMap chars ++ rest) ∧ AllReadBefore rest as

theorem readBefore_of_mem {rest : Text} {as : List Attribute} (h : AllReadBefore rest as) :
    ∀ a ∈ as, a.name ≠ [] ∧ ∃ rest', a.ReadBefore rest' := by
  induction as with
  | nil => exact List.forall_mem_nil _
  | cons a as ih =>
    obtain ⟨-, hname, -, ha, has⟩ := h
    exact List.forall_mem_cons.2 ⟨⟨hname, _, ha⟩, ih has⟩

theorem exists_cons_of_readBefore {rest : Text} {a : Attribute} (hne : a.name ≠ [])
    (h : a.ReadBefore rest) :
    ∃ c t, a.body ++ rest = c :: t ∧ isNameChar c = true ∧ Text.isBlank c = false := by
  obtain ⟨c, run, hname⟩ := List.exists_cons_of_ne_nil hne
  have hc : isNameChar c = true := h.1 c (by rw [hname]; exact List.mem_cons_self)
  refine ⟨c, _, by rw [body, hname]; rfl, hc, ?_⟩
  cases hb : Text.isBlank c with
  | false => rfl
  | true => rw [not_isNameChar_of_isBlank hb] at hc; cases hc

end Attribute

/-! ## Heads -/

namespace Head

/-- The head is one in front of this text. -/
def ReadBefore (rest : Text) (h : Head) : Prop :=
  h.name.ReadBefore (h.attributes.flatMap Attribute.chars ++ (h.gap ++ (h.closing ++ rest))) ∧
    Attribute.AllReadBefore (h.gap ++ (h.closing ++ rest)) h.attributes ∧ Text.AllBlank h.gap

theorem exists_of_readOnto {name : TagName} {found : List Attribute} {t rest : Text} {h : Head}
    (hr : readOnto name found t = .ok (h, rest)) :
    ∃ as, h = ⟨name, found.reverse ++ as, h.gap, h.selfClosing⟩ ∧
      t = as.flatMap Attribute.chars ++ (h.gap ++ (h.closing ++ rest)) ∧
      Attribute.AllReadBefore (h.gap ++ (h.closing ++ rest)) as ∧ Text.AllBlank h.gap := by
  fun_induction readOnto name found t with
  | case1 => cases hr
  | case2 found t gap rest' ht =>
    cases hr
    refine ⟨[], by simp, ?_, trivial, Text.allBlank_leadingBlanks t⟩
    have := Text.leadingBlanks_append_trimStart t
    rw [ht] at this
    exact this.symm
  | case3 found t gap rest' ht =>
    cases hr
    refine ⟨[], by simp, ?_, trivial, Text.allBlank_leadingBlanks t⟩
    have := Text.leadingBlanks_append_trimStart t
    rw [ht] at this
    exact this.symm
  | case4 => cases hr
  | case5 => cases hr
  | case6 found t gap c rest' _ _ hd hl ht hc a rest'' ha ih =>
    obtain ⟨as, hh, rfl, has, hgap⟩ := ih hr
    obtain ⟨hag, hbody, hbefore⟩ := Attribute.read_eq_ok_iff.1 ha
    have hname : a.name ≠ [] := by
      rw [(Attribute.eq_of_read ha).2.1, List.takeWhile_cons, if_pos hc]
      simp
    refine ⟨a :: as, by simpa using hh, ?_, ⟨?_, hname, ?_, hbefore, has⟩, hgap⟩
    · have hsplit := Text.leadingBlanks_append_trimStart t
      rw [ht, hbody] at hsplit
      rw [← hsplit, List.flatMap_cons, Attribute.chars, hag]
      simp [gap]
    · rw [hag]
      exact Text.allBlank_leadingBlanks t
    · rw [← hbody]
      exact opensLiquid_eq_false hd hl
  | case7 => cases hr
  | case8 => cases hr

/-- Attributes that stand in front of a text are read one behind the other. -/
theorem readOnto_attributes {name : TagName} {as : List Attribute} {u : Text}
    (found : List Attribute) (has : Attribute.AllReadBefore u as) :
    readOnto name found (as.flatMap Attribute.chars ++ u) =
      readOnto name (as.reverse ++ found) u := by
  induction as generalizing found with
  | nil => rfl
  | cons a as ih =>
    obtain ⟨hag, hne, hopens, ha, has⟩ := has
    obtain ⟨c, t, ht, hc, hblank⟩ := Attribute.exists_cons_of_readBefore hne ha
    obtain ⟨hblanks, htrim⟩ := Text.blanks_append_of_stops hag
      (Text.stops_cons.2 hblank : Text.Stops Text.isBlank (c :: t))
    rw [ht] at hopens
    have hread := Attribute.read_eq_ok_iff.2 ⟨rfl, ht.symm, ha⟩
    rw [List.flatMap_cons, Attribute.chars, List.append_assoc, List.append_assoc, ht,
      readOnto_attribute htrim hopens hc (by rw [hblanks]; exact hread), ih _ has]
    simp

theorem readOnto_of_attributes {name : TagName} {as : List Attribute} {gap rest : Text}
    (sc : Bool) (hgap : Text.AllBlank gap) (found : List Attribute)
    (has : Attribute.AllReadBefore (gap ++ ((if sc then ['/', '>'] else ['>']) ++ rest)) as) :
    readOnto name found
        (as.flatMap Attribute.chars ++ (gap ++ ((if sc then ['/', '>'] else ['>']) ++ rest))) =
      .ok (⟨name, found.reverse ++ as, gap, sc⟩, rest) := by
  have hfound : (as.reverse ++ found).reverse = found.reverse ++ as := by
    rw [List.reverse_append, List.reverse_reverse]
  rw [readOnto_attributes found has]
  cases sc with
  | false =>
    obtain ⟨hblanks, htrim⟩ := Text.blanks_append_of_stops hgap
      (Text.stops_cons.2 rfl : Text.Stops Text.isBlank ('>' :: rest))
    refine (readOnto_close htrim).trans ?_
    rw [hblanks, hfound]
  | true =>
    obtain ⟨hblanks, htrim⟩ := Text.blanks_append_of_stops hgap
      (Text.stops_cons.2 rfl : Text.Stops Text.isBlank ('/' :: '>' :: rest))
    refine (readOnto_selfClose htrim).trans ?_
    rw [hblanks, hfound]

/-- A head is read exactly where one stands. -/
theorem read_eq_ok_iff {t rest : Text} {h : Head} :
    Opening.startsName t = true ∧ read t = .ok (h, rest) ↔
      t = h.tail ++ rest ∧ h.ReadBefore rest := by
  constructor
  · rintro ⟨hs, hr⟩
    refine ⟨append_of_read hr, ?_⟩
    unfold read at hr
    split at hr
    · next name r hn =>
      obtain ⟨-, hname⟩ := TagName.read_eq_ok_iff.1 ⟨hs, hn⟩
      obtain ⟨as, hh, rfl, has, hgap⟩ := exists_of_readOnto hr
      rw [hh] at has hname hgap ⊢
      exact ⟨hname, has, hgap⟩
    · cases hr
  · rintro ⟨rfl, hname, has, hgap⟩
    have htail : h.tail ++ rest = h.name.chars ++ (h.attributes.flatMap Attribute.chars ++
        (h.gap ++ (h.closing ++ rest))) := by
      simp [tail]
    obtain ⟨hs, hn⟩ := TagName.read_eq_ok_iff.2 ⟨rfl, hname⟩
    rw [htail]
    refine ⟨hs, ?_⟩
    simp only [read, hn]
    exact readOnto_of_attributes h.selfClosing hgap [] has

/-- Nothing behind a head has a part in it. -/
theorem ReadBefore.of_readBefore {head : Head} {rest : Text} (h : head.ReadBefore rest)
    (x : Text) : head.ReadBefore x := by
  obtain ⟨hs, hr⟩ := read_eq_ok_iff.2 ⟨rfl, h⟩
  obtain ⟨u, hu, hstarts, hread⟩ := read_append hs hr
  obtain rfl := List.append_cancel_right hu
  exact (read_eq_ok_iff.1 ⟨hstarts x, hread x⟩).2

end Head

/-! ## Constructs -/

namespace Lexeme

/-- The lexeme is a complete construct in front of this text. -/
def ReadBefore (rest : Text) : Lexeme → Prop
  | drop inner => Delimiter.drop.Closes inner
  | tag inner => Delimiter.tag.Closes inner ∧ Keyword.isRawTag (Tag.ofInner inner).name = false
  | startTag head => head.ReadBefore rest ∧ head.rawName? = none
  | endTag name gap => name.ReadBefore (gap ++ '>' :: rest) ∧ Text.AllBlank gap
  | comment body =>
    Delimiter.comment.finish? (body ++ (Delimiter.comment.closing ++ rest)) = some (body, rest)
  | doctype keyword raw =>
    Keyword.fold keyword = "doctype".toList ∧
      Text.splitFirst? ['>'] (raw ++ '>' :: rest) = some (raw, rest)
  | rawElement head body closeName closeRest =>
    head.ReadBefore (body ++ (closeChars closeName closeRest ++ rest)) ∧
      ∃ name, head.rawName? = some name ∧
        Raw.readElement? name (body ++ (closeChars closeName closeRest ++ rest)) =
          some (⟨body, closeName, closeRest⟩, rest)
  | rawTag opening body closing =>
    Delimiter.tag.Closes opening ∧ Keyword.isRawTag (Tag.ofInner opening).name = true ∧
      Raw.readTag? (Tag.ofInner opening).name (body ++ (Delimiter.tag.enclose closing ++ rest)) =
        some (body, closing, rest)
  | text _ | invalid _ _ => False

theorem readBefore_of_complete {o : Opening} {t rest : Text} {l : Lexeme} (hf : o.Fits t)
    (h : o.complete t = .ok (l, rest)) : l.ReadBefore rest := by
  cases o with
  | drop =>
    simp only [Opening.complete] at h
    split at h
    · next hd => cases h; exact Delimiter.closes_of_finish? hd
    · cases h
  | tag =>
    simp only [Opening.complete] at h
    split at h
    · cases h
    · next inner r hd =>
      have hcloses := Delimiter.closes_of_finish? hd
      split at h
      · next hraw =>
        split at h
        · next hr =>
          cases h
          obtain rfl := Raw.append_of_readTag? hr
          exact ⟨hcloses, hraw, by rwa [List.append_assoc] at hr⟩
        · cases h
      · next hraw => cases h; exact ⟨hcloses, by simpa using hraw⟩
  | comment =>
    simp only [Opening.complete] at h
    split at h
    · next hd =>
      cases h
      obtain rfl := Delimiter.append_of_finish? hd
      rwa [List.append_assoc] at hd
    · cases h
  | doctype keyword =>
    simp only [Opening.complete] at h
    split at h
    · next hd =>
      cases h
      obtain rfl := Text.append_of_splitFirst? hd
      exact ⟨hf, by simpa using hd⟩
    · cases h
  | endTag =>
    simp only [Opening.complete] at h
    split at h
    · cases h
    · next name r hn =>
      split at h
      · next hgt =>
        cases h
        have hsplit := Text.leadingBlanks_append_trimStart r
        rw [hgt] at hsplit
        refine ⟨?_, Text.allBlank_leadingBlanks r⟩
        rw [hsplit]
        exact (TagName.read_eq_ok_iff.1 ⟨hf, hn⟩).2
      · cases h
  | startTag =>
    simp only [Opening.complete] at h
    split at h
    · cases h
    · next head r hh =>
      have hhead := (Head.read_eq_ok_iff.1 ⟨hf, hh⟩).2
      split at h
      · next hraw => cases h; exact ⟨hhead, hraw⟩
      · next name hraw =>
        split at h
        · next e _ he =>
          cases h
          have hr : r = e.body ++ (closeChars e.name e.gap ++ rest) := by
            simpa [closeChars] using Raw.append_of_readElement? he
          rw [hr] at hhead he
          exact ⟨hhead, name, hraw, he⟩
        · cases h

theorem next?_of_readBefore {rest : Text} {l : Lexeme} (h : l.ReadBefore rest) :
    next? (l.chars ++ rest) = some (l, rest) := by
  cases l with
  | text v => exact h.elim
  | invalid flaw t => exact h.elim
  | drop inner =>
    have hf := Delimiter.finish?_append h rest
    have hcomplete : Opening.drop.complete (inner ++ Delimiter.drop.closing ++ rest) =
        .ok (drop inner, rest) := by
      simp only [Opening.complete, hf]
    simpa [chars, Delimiter.enclose, Opening.chars] using
      next?_of_complete (show Opening.drop.Fits _ from trivial) hcomplete
  | tag inner =>
    obtain ⟨hcloses, hraw⟩ := h
    have hf := Delimiter.finish?_append hcloses rest
    have hcomplete : Opening.tag.complete (inner ++ Delimiter.tag.closing ++ rest) =
        .ok (tag inner, rest) := by
      simp only [Opening.complete, hf, hraw, Bool.false_eq_true, if_false]
    simpa [chars, Delimiter.enclose, Opening.chars] using
      next?_of_complete (show Opening.tag.Fits _ from trivial) hcomplete
  | startTag head =>
    obtain ⟨hhead, hraw⟩ := h
    obtain ⟨hs, hh⟩ := Head.read_eq_ok_iff.2 ⟨rfl, hhead⟩
    have hcomplete : Opening.startTag.complete (head.tail ++ rest) = .ok (startTag head, rest) := by
      simp only [Opening.complete, hh, hraw]
    exact next?_of_complete (show Opening.startTag.Fits _ from hs) hcomplete
  | endTag name gap =>
    obtain ⟨hname, hgap⟩ := h
    obtain ⟨hs, hn⟩ := TagName.read_eq_ok_iff.2 ⟨rfl, hname⟩
    simpa [chars, Opening.chars] using
      next?_of_complete (show Opening.endTag.Fits _ from hs) (Opening.complete_endTag hgap hn)
  | comment body =>
    have h : Delimiter.comment.finish? (body ++ (Delimiter.comment.closing ++ rest)) =
        some (body, rest) := h
    have hcomplete : Opening.comment.complete (body ++ (Delimiter.comment.closing ++ rest)) =
        .ok (comment body, rest) := by
      simp only [Opening.complete, h]
    simpa [chars, Delimiter.enclose, Opening.chars] using
      next?_of_complete (show Opening.comment.Fits _ from trivial) hcomplete
  | doctype keyword raw =>
    obtain ⟨hfold, h⟩ := h
    have hcomplete : (Opening.doctype keyword).complete (raw ++ '>' :: rest) =
        .ok (doctype keyword raw, rest) := by
      simp only [Opening.complete, h]
    simpa [chars, Opening.chars] using
      next?_of_complete (show (Opening.doctype keyword).Fits _ from hfold) hcomplete
  | rawElement head body closeName closeRest =>
    obtain ⟨hhead, name, hraw, he⟩ := h
    obtain ⟨hs, hh⟩ := Head.read_eq_ok_iff.2 ⟨rfl, hhead⟩
    have hcomplete : Opening.startTag.complete
        (head.tail ++ (body ++ (closeChars closeName closeRest ++ rest))) =
          .ok (rawElement head body closeName closeRest, rest) := by
      simp only [Opening.complete, hh, hraw, he]
    simpa [chars, closeChars, Opening.chars, Head.chars] using
      next?_of_complete (show Opening.startTag.Fits _ from hs) hcomplete
  | rawTag opening body closing =>
    obtain ⟨hcloses, hraw, hr⟩ := h
    have hf := Delimiter.finish?_append hcloses (body ++ (Delimiter.tag.enclose closing ++ rest))
    have hcomplete : Opening.tag.complete
        (opening ++ Delimiter.tag.closing ++ (body ++ (Delimiter.tag.enclose closing ++ rest))) =
          .ok (rawTag opening body closing, rest) := by
      simp only [Opening.complete, hf, hraw, hr, if_true]
    simpa [chars, Delimiter.enclose, Opening.chars] using
      next?_of_complete (show Opening.tag.Fits _ from trivial) hcomplete

/-- A construct is read exactly where one stands. -/
theorem next?_chars_iff {rest : Text} {l : Lexeme} (hl : l.isConstruct = true) :
    next? (l.chars ++ rest) = some (l, rest) ↔ l.ReadBefore rest := by
  constructor
  · intro h
    obtain ⟨o, r, -, hf, hc⟩ := (next?_construct_iff hl).1 h
    exact readBefore_of_complete hf hc
  · exact next?_of_readBefore

/-- If it is a construct, the lexeme is one in front of something. -/
def Read (l : Lexeme) : Prop := l.isConstruct = true → ∃ rest, l.ReadBefore rest

theorem read_of_mem_ofText {t : Text} {l : Lexeme} (h : l ∈ ofText t) : l.Read := by
  intro hl
  obtain ⟨rest, hn⟩ := next?_of_mem_ofText h
  exact ⟨rest, (next?_chars_iff hl).1 hn⟩

end Lexeme

/-- All constructs of a template stand in front of something. -/
theorem Token.read_of_mem_ofText {source : Text} {t : Token} (h : t ∈ ofText source) :
    t.item.Read :=
  forall_mem_ofText_iff.2 (fun _ => Lexeme.read_of_mem_ofText) t h

end LiquidTemplate
