import LiquidTemplate.Proofs.Lexeme.Grammar
import LiquidTemplate.Proofs.Text.Places
import LiquidTemplate.Proofs.Token.Cursor

/-!
# Constructs end at their first end

A construct with a beginning and an end of its own runs up to the first place behind the beginning
at which such an end stands, wherever beginning and end may overlap (`Lexeme.endsFirst`). It is
invalid exactly when there is no such place (`Beginning.parts_eq_flaw_iff`).
-/

namespace LiquidTemplate

open Text (placesFrom)

/-- The span is `opening`, `inner` and `closing`, and behind the opening `closing` stands nowhere
earlier. -/
def Span.EndsFirst (source opening inner closing : Text) (s : Span) : Prop :=
  Text.slice? source s = some (opening ++ inner ++ closing) ∧
    IsLeast (placesFrom source (s.start + Text.size opening) (closing <+: ·))
      (s.start + Text.size opening + Text.size inner)

/-- The end of a raw element of this name begins here: `</`, the name in any case, and a `>` or an
ASCII blank. -/
def Raw.EndsElement (name t : Text) : Prop :=
  ∃ written after, t = ['<', '/'] ++ written ++ after ∧ Keyword.fold written = Keyword.fold name ∧
    Raw.endsName after = true

/-- The same, and the `>` that completes the end tag stands behind it. -/
def Raw.ClosesElement (name t : Text) : Prop :=
  ∃ written after, t = ['<', '/'] ++ written ++ after ∧ Keyword.fold written = Keyword.fold name ∧
    Raw.endsName after = true ∧ '>' ∈ after

/-- The token, or its opening tag, runs up to the first end behind its beginning. -/
def Token.EndsFirst (source : Text) (t : Token) : Prop :=
  match t.parts with
  | .drop => ∃ inner, t.span.EndsFirst source ['{', '{'] inner ['}', '}']
  | .tag => ∃ inner, t.span.EndsFirst source ['{', '%'] inner ['%', '}']
  | .rawTag opening _ _ =>
    opening.start = t.start ∧ ∃ inner, opening.EndsFirst source ['{', '%'] inner ['%', '}']
  | .comment body =>
    ∃ inner, t.span.EndsFirst source ['<', '!', '-', '-'] inner ['-', '-', '>'] ∧
      body = .ofText (t.start + 4) inner
  | .doctype value =>
    ∃ keyword inner, Keyword.fold keyword = "doctype".toList ∧
      t.span.EndsFirst source (['<', '!'] ++ keyword) inner ['>'] ∧
        value = .ofText (t.start + Text.size (['<', '!'] ++ keyword ++ Text.leadingBlanks inner))
          (Text.trim inner)
  | .rawElement head body close =>
    head.whole.start = t.start ∧ body.start = head.whole.stop ∧ close.start = body.stop ∧
      close.stop = t.stop ∧
        ∃ name, Text.slice? source head.name.whole = some name ∧
          IsLeast (placesFrom source head.whole.stop (Raw.EndsElement name)) body.stop ∧
            ∃ written gap, Keyword.fold written = Keyword.fold name ∧
              close.EndsFirst source (['<', '/'] ++ written) gap ['>']
  | .text | .startTag _ | .endTag _ | .invalid _ => True

section

variable {source before rest : Text}

variable (before) in
theorem Span.endsFirst_of_splitFirst? (opening : Text) {inner closing : Text}
    (h : Text.splitFirst? closing (inner ++ closing ++ rest) = some (inner, rest)) :
    (Span.ofText (Text.size before) (opening ++ inner ++ closing)).EndsFirst
      (before ++ (opening ++ inner ++ closing ++ rest)) opening inner closing := by
  refine ⟨Text.slice?_eq_some_iff.2 ⟨before, rest, by simp, rfl, rfl⟩, ?_⟩
  have hleast := Text.isLeast_of_splitFirst? (before ++ opening) h
  rw [Text.size_append] at hleast
  simpa [Span.ofText] using hleast

theorem Delimiter.endsFirst_enclose {d : Delimiter} {inner : Text} (h : d.Closes inner) :
    (Span.ofText (Text.size before) (d.enclose inner)).EndsFirst
      (before ++ (d.enclose inner ++ rest)) d.opening inner d.closing :=
  Span.endsFirst_of_splitFirst? _ _ (Delimiter.finish?_append h rest)

theorem Raw.endsElement_iff {name t : Text} :
    EndsElement name t ↔ ∃ found, endTagOf? name t = some found := by
  rw [Prod.exists]
  exact exists₂_congr fun _ _ => endTagOf?_eq_some_iff.symm

/-- A raw element ends at the first end tag of its name. -/
theorem Raw.isLeast_of_readElement? (front : Text) {name body written gap : Text}
    (h : readElement? name (body ++ (Lexeme.closeChars written gap ++ rest)) =
      some (⟨body, written, gap⟩, rest)) :
    IsLeast (placesFrom (front ++ (body ++ (Lexeme.closeChars written gap ++ rest)))
      (Text.size front) (EndsElement name)) (Text.size front + Text.size body) ∧
      Keyword.fold written = Keyword.fold name ∧
        Text.splitFirst? ['>'] (gap ++ ['>'] ++ rest) = some (gap, rest) := by
  obtain ⟨after, hfirst, hgap⟩ := readElement?_eq_some_iff.1 h
  obtain ⟨suffix, -, hend, -⟩ := Text.firstSuffix?_eq_some_iff.1 hfirst
  obtain ⟨-, hfold, -⟩ := endTagOf?_eq_some_iff.1 hend
  refine ⟨Text.isLeast_of_firstSuffix? (fun _ => endsElement_iff) front hfirst, hfold, ?_⟩
  rwa [← Text.append_of_splitFirst? hgap]

theorem Lexeme.endsFirst_rawElement {head : Head} {body closeName closeRest : Text}
    (h : (rawElement head body closeName closeRest).ReadBefore rest) :
    Token.EndsFirst (before ++ ((rawElement head body closeName closeRest).chars ++ rest))
      ⟨Text.size before, rawElement head body closeName closeRest⟩ := by
  obtain ⟨-, name, hraw, he⟩ := h
  obtain ⟨hleast, hfold, hgap⟩ := Raw.isLeast_of_readElement? (before ++ head.chars) he
  have hclose := Span.endsFirst_of_splitFirst? (before ++ head.chars ++ body)
    (['<', '/'] ++ closeName) hgap
  have hname : Text.slice? (before ++ ((rawElement head body closeName closeRest).chars ++ rest))
      (Span.ofText (Text.size before + 1) head.name.chars) = some name := by
    have hwithin := Head.within_name.trans
      (within_rawElement (Text.size before) head body closeName closeRest).1
    rw [(Head.isRawElement_of_rawName? hraw).1] at hwithin ⊢
    exact Located.within_iff_slice?.2
      ⟨hwithin.trans ⟨before, rest, by simp, (Nat.zero_add _).symm⟩, rfl⟩
  have hsource : before ++ ((rawElement head body closeName closeRest).chars ++ rest) =
      before ++ head.chars ++ (body ++ (closeChars closeName closeRest ++ rest)) := by
    simp [chars, closeChars]
  have hstop : Token.stop ⟨Text.size before, rawElement head body closeName closeRest⟩ =
      Text.size (before ++ head.chars ++ body) + Text.size (closeChars closeName closeRest) := by
    simp only [Token.stop_eq, chars, closeChars, Text.size_append]
    omega
  refine ⟨rfl, rfl, rfl, rfl, name, hname, ?_, closeName, closeRest, hfold, ?_⟩
  · rw [Text.size_append] at hleast
    rw [hsource]
    exact hleast
  · rw [hsource, hstop, ← List.append_assoc]
    simpa [Span.ofText, closeChars, Nat.add_assoc] using hclose

/-! ## Every token of a template -/

variable (before) in
/-- A construct that is read ends at its first end. -/
theorem Lexeme.endsFirst {l : Lexeme} (hn : next? (l.chars ++ rest) = some (l, rest)) :
    Token.EndsFirst (before ++ (l.chars ++ rest)) ⟨Text.size before, l⟩ := by
  cases l with
  | text _ => trivial
  | invalid _ _ => trivial
  | startTag _ => trivial
  | endTag _ _ => trivial
  | drop inner =>
    exact ⟨inner, Delimiter.endsFirst_enclose ((next?_chars_iff rfl).1 hn)⟩
  | tag inner =>
    exact ⟨inner, Delimiter.endsFirst_enclose ((next?_chars_iff rfl).1 hn).1⟩
  | comment body =>
    have h : Delimiter.comment.finish? _ = some (body, rest) := (next?_chars_iff rfl).1 hn
    rw [← List.append_assoc] at h
    exact ⟨body, Span.endsFirst_of_splitFirst? _ _ h, rfl⟩
  | doctype keyword raw =>
    obtain ⟨hfold, h⟩ : _ ∧ _ := (next?_chars_iff rfl).1 hn
    rw [List.append_cons raw] at h
    refine ⟨keyword, raw, hfold, Span.endsFirst_of_splitFirst? _ _ h, ?_⟩
    rw [Text.size_append, Text.size_append, ← Nat.add_assoc, ← Nat.add_assoc]
    rfl
  | rawElement head body closeName closeRest =>
    exact endsFirst_rawElement ((next?_chars_iff rfl).1 hn)
  | rawTag opening body closing =>
    obtain ⟨hcloses, -⟩ : _ ∧ _ := (next?_chars_iff rfl).1 hn
    refine ⟨rfl, opening, ?_⟩
    rw [chars, List.append_assoc, List.append_assoc]
    exact Delimiter.endsFirst_enclose hcloses

end

/-! ## Constructs without an end -/

/-- What begins a construct that has an end of its own. -/
inductive Beginning where
  | delimiter (d : Delimiter)
  /-- The word `doctype` is kept as written. -/
  | doctype (keyword : Text)
  /-- The start tag of an element whose body is kept verbatim. -/
  | rawElement (head : Head)
deriving DecidableEq, Repr

namespace Beginning

def chars : Beginning → Text
  | delimiter d => d.opening
  | doctype keyword => ['<', '!'] ++ keyword
  | rawElement head => head.chars

/-- It is one in front of this text. -/
def Fits (rest : Text) : Beginning → Prop
  | delimiter _ => True
  | doctype keyword => Keyword.fold keyword = "doctype".toList
  | rawElement head => head.ReadBefore rest ∧ head.rawName?.isSome = true

/-- An end of the construct begins here. -/
def EndsAt (t : Text) : Beginning → Prop
  | delimiter d => d.closing <+: t
  | doctype _ => ['>'] <+: t
  | rawElement head => Raw.ClosesElement head.name.chars t

/-- What is reported if there is no end. -/
def flaw : Beginning → Flaw
  | delimiter d => .unterminated d
  | doctype _ => .head .unterminatedDoctype
  | rawElement head => .unclosedRaw (Keyword.fold head.name.chars)

/-- It stands at this offset of the source. -/
def StandsAt (source : Text) (start : Nat) (b : Beginning) : Prop :=
  ∃ before rest, source = before ++ (b.chars ++ rest) ∧ Text.size before = start ∧ b.Fits rest

end Beginning

section

variable {name t rest : Text} {o : Opening} {flaw : Flaw}

/-- A beginning that is not completed makes all that is left invalid. -/
theorem Lexeme.next?_of_complete_error (hf : o.Fits t) (h : o.complete t = .error flaw) :
    next? (o.chars ++ t) = some (invalid flaw (o.chars ++ t), []) := by
  have ho := Opening.ofText?_eq_some_iff.2 ⟨rfl, hf⟩
  obtain ⟨c, cs, hc⟩ := List.exists_cons_of_ne_nil (Opening.chars_ne_nil o)
  rw [hc, List.cons_append] at ho ⊢
  simp only [next?, ho, h]

theorem Token.parts_ne_invalid {u : Token} (h : u.item.isConstruct = true) :
    u.parts ≠ .invalid flaw := by
  obtain ⟨start, item⟩ := u
  cases item with
  | text _ => cases h
  | invalid _ _ => cases h
  | _ => exact Parts.noConfusion

theorem Token.parts_eq_invalid_iff {u : Token} (hf : o.Fits t)
    (hn : Lexeme.next? (o.chars ++ t) = some (u.item, rest)) :
    u.parts = .invalid flaw ↔ o.complete t = .error flaw := by
  cases hc : o.complete t with
  | ok found =>
    obtain ⟨l, r⟩ := found
    have hl := Lexeme.isConstruct_of_complete hc
    rw [Lexeme.next?_of_complete hf hc] at hn
    cases hn
    exact iff_of_false (parts_ne_invalid hl) nofun
  | error flaw' =>
    rw [Lexeme.next?_of_complete_error hf hc] at hn
    obtain ⟨start, item⟩ := u
    cases hn
    simp [parts]

/-- The names of raw elements have no `>`. -/
theorem Keyword.gt_notMem_of_isRawElement {written : Text} (h : isRawElement name = true)
    (hw : fold written = fold name) : '>' ∉ written := by
  intro hmem
  have hgt : '>' ∈ fold name := hw ▸ List.mem_map_of_mem (f := Char.toLower) hmem
  have hnames : ∀ n ∈ rawElements, '>' ∉ n := by decide
  exact hnames _ (List.contains_iff_mem.1 h) hgt

/-- Behind the first end tag that has no `>` there is none at all, so no other one is complete. -/
theorem Raw.readElement?_eq_none_iff (h : Keyword.isRawElement name = true) :
    readElement? name t = none ↔ ∀ p q, t = p ++ q → ¬ ClosesElement name q := by
  cases hfirst : Text.firstSuffix? (endTagOf? name) t with
  | none =>
    have hnone : readElement? name t = none := by simp [readElement?, hfirst]
    refine iff_of_true hnone ?_
    rintro p q hpq ⟨written, after, hq, hfold, hends, -⟩
    have hend := Text.firstSuffix?_eq_none_iff.1 hfirst p q hpq
    rw [endTagOf?_eq_some_iff.2 ⟨hq, hfold, hends⟩] at hend
    cases hend
  | some found =>
    obtain ⟨body, written, after⟩ := found
    obtain ⟨suffix, rfl, hend, hfail⟩ := Text.firstSuffix?_eq_some_iff.1 hfirst
    obtain ⟨rfl, hfold, hends⟩ := endTagOf?_eq_some_iff.1 hend
    have hread : readElement? name (body ++ (['<', '/'] ++ written ++ after)) = none ↔
        '>' ∉ after := by
      rw [← Text.splitFirst?_singleton_eq_none_iff, readElement?, hfirst]
      cases hgap : Text.splitFirst? ['>'] after <;> simp [hgap]
    rw [hread]
    constructor
    · rintro hafter p q hpq ⟨written', after', rfl, hfold', hends', hgt⟩
      have hsuffix : '>' ∉ ['<', '/'] ++ written ++ after := by
        have := Keyword.gt_notMem_of_isRawElement h hfold
        simp [this, hafter]
      have hmem : '>' ∈ ['<', '/'] ++ written' ++ after' := List.mem_append_right _ hgt
      rcases List.append_eq_append_iff.1 hpq with ⟨u, -, hu⟩ | ⟨u, hbody, hu⟩
      · exact hsuffix (hu ▸ List.mem_append_right u hmem)
      · by_cases hnil : u = []
        · rw [hnil, List.nil_append] at hu
          exact hsuffix (hu ▸ hmem)
        · -- an end tag in front of the first one
          have hnone := hfail p u hbody hnil
          rw [← hu, endTagOf?_eq_some_iff.2 ⟨rfl, hfold', hends'⟩] at hnone
          cases hnone
    · intro hnone hgt
      exact hnone body _ rfl ⟨written, after, rfl, hfold, hends, hgt⟩

end

namespace Beginning

/-- A construct is reported without an end if and only if none is left. -/
theorem parts_eq_flaw_iff {b : Beginning} (before : Text) {rest r : Text} {t : Token}
    (hb : b.Fits rest) (hn : Lexeme.next? (b.chars ++ rest) = some (t.item, r)) :
    t.parts = .invalid b.flaw ↔
      placesFrom (before ++ (b.chars ++ rest)) (Text.size (before ++ b.chars)) b.EndsAt = ∅ := by
  rw [← List.append_assoc]
  cases b with
  | delimiter d =>
    have hfinish : d.finish? rest = none ↔ _ :=
      Text.splitFirst?_eq_none_iff_places (before ++ d.opening)
    refine Iff.trans ?_ hfinish
    cases d with
    | drop =>
      rw [Token.parts_eq_invalid_iff (o := .drop) trivial hn, Opening.complete]
      cases Delimiter.drop.finish? rest <;> simp [flaw]
    | tag =>
      rw [Token.parts_eq_invalid_iff (o := .tag) trivial hn, Opening.complete]
      cases Delimiter.tag.finish? rest with
      | none => simp [flaw]
      | some found =>
        simp only [flaw]
        split
        · split <;> simp
        · simp
    | comment =>
      rw [Token.parts_eq_invalid_iff (o := .comment) trivial hn, Opening.complete]
      cases Delimiter.comment.finish? rest <;> simp [flaw]
  | doctype keyword =>
    refine Iff.trans ?_ (Text.splitFirst?_eq_none_iff_places _)
    rw [Token.parts_eq_invalid_iff (o := .doctype keyword) hb hn, Opening.complete]
    cases Text.splitFirst? ['>'] rest <;> simp [flaw]
  | rawElement head =>
    obtain ⟨hhead, hraw⟩ := hb
    obtain ⟨name, hraw⟩ := Option.isSome_iff_exists.1 hraw
    obtain ⟨hname, hisRaw⟩ := Head.isRawElement_of_rawName? hraw
    obtain ⟨hs, hread⟩ := Head.read_eq_ok_iff.2 ⟨rfl, hhead⟩
    have hchars : head.name.chars = name := by rw [hname]; rfl
    rw [Text.placesFrom_eq_empty_iff]
    simp only [EndsAt, flaw, hchars]
    rw [← Raw.readElement?_eq_none_iff hisRaw,
      Token.parts_eq_invalid_iff (o := .startTag) (t := head.tail ++ rest) hs hn]
    simp only [Opening.complete, hread, hraw]
    cases Raw.readElement? name rest <;> simp

end Beginning

/-- **Constructs end at their first end.** Of the tokens from any offset on, a drop, a tag, the
opening tag of a raw tag, a comment and a doctype run up to the first closing behind their opening,
and a raw element up to the first end tag of its name. Where such a construct begins, the rest of
the template is invalid for the lack of its end if and only if there is none. -/
theorem Cursor.tokens_end_first (source : Text) (offset : Nat) :
    ∀ t ∈ (ofOffset source offset).tokens, t.EndsFirst source ∧
      ∀ b : Beginning, b.StandsAt source t.start →
        (t.parts = .invalid b.flaw ↔
          placesFrom source (t.start + Text.size b.chars) b.EndsAt = ∅) := by
  intro t ht
  obtain ⟨before, rest, hs, hstart, hn⟩ := next?_of_mem_tokens (stands_ofOffset source offset) ht
  refine ⟨?_, ?_⟩
  · have h := Lexeme.endsFirst before hn
    rwa [hstart, ← hs] at h
  · rintro b ⟨before', rest', hs', hstart', hb⟩
    obtain ⟨rfl, htext⟩ := Text.append_inj_of_size (hs.symm.trans hs') (hstart.trans hstart'.symm)
    rw [htext] at hn
    rw [Beginning.parts_eq_flaw_iff before hb hn, Text.size_append, hstart, ← hs']

/-- A comment whose body is the `>` of its opening, a raw element with a longer name in its body and
its end tag in capitals, and an opening without an end. -/
theorem Cursor.tokens_end_first_overlap :
    let source := "<!-->--><script></scripts></SCRIPT\t></script\n>\x7b\x7b \x7d".toList
    IsLeast (placesFrom source 4 (['-', '-', '>'] <+: ·)) 5 ∧
      IsLeast (placesFrom source 16 (Raw.EndsElement "script".toList)) 26 ∧
        placesFrom source 48 (['}', '}'] <+: ·) = ∅ := by
  intro source
  have hcomment := (tokens_end_first source 0 ⟨0, .comment ['>']⟩ (by decide +kernel)).1
  have helement := (tokens_end_first source 0
    ⟨8, .rawElement ⟨.fixed "script".toList, [], [], false⟩ "</scripts>".toList "SCRIPT".toList
      "\t".toList⟩ (by decide +kernel)).1
  have hdrop := (tokens_end_first source 0 ⟨46, .invalid (.unterminated .drop)
    "\x7b\x7b \x7d".toList⟩ (by decide +kernel)).2 (.delimiter .drop)
  refine ⟨?_, ?_, ?_⟩
  · obtain ⟨inner, ⟨hslice, hleast⟩, -⟩ := hcomment
    have hwhole : Text.slice? source ⟨0, 8⟩ = some "<!-->-->".toList := by decide +kernel
    obtain rfl : ['>'] = inner := by
      have hbody : ['<', '!', '-', '-'] ++ ['>'] ++ ['-', '-', '>'] = _ :=
        Option.some.inj (hwhole.symm.trans hslice)
      exact List.append_cancel_left (List.append_cancel_right hbody)
    exact hleast
  · obtain ⟨-, -, -, -, name, hname, hleast, -⟩ := helement
    have hscript : Text.slice? source ⟨9, 15⟩ = some "script".toList := by decide +kernel
    obtain rfl : "script".toList = name := Option.some.inj (hscript.symm.trans hname)
    exact hleast
  · exact (hdrop ⟨source.take 46, " \x7d".toList, by decide +kernel, by decide +kernel,
      trivial⟩).1 rfl

end LiquidTemplate
