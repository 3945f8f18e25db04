import LiquidTemplate.Proofs.Reader.Heads
import LiquidTemplate.Proofs.Reader.Bodies
import LiquidTemplate.Proofs.Token.Parts

/-!
# Scanning tokens by offsets

From a character boundary on, scanning by offsets gives the tokens of the text there, each with its
span and those of its parts (`tokens_eq`). So it never reads out of range, makes no span that stops
before it starts, takes no construct for one that is too short, and ends.
-/

namespace LiquidTemplate

/-- The spans of a token. -/
def Token.reading (t : Token) : Reading := ⟨t.span, t.parts⟩

namespace Reader

open Cursor (Stands)

variable {source t : Text} {i : Nat}

/-- What a construct that was completed makes a reader find. -/
def completed (i : Nat) (o : Opening) (t : Text) : Read Reading :=
  ofExcept ((o.complete t).map fun found => Token.reading ⟨i, found.1⟩)

theorem drop_eq (h : Stands source ⟨i, Delimiter.drop.opening ++ t⟩) :
    (do return ⟨← span i (← closedEnd source .drop i), .drop⟩ : Read Reading) =
      completed i .drop t := by
  rw [completed, Opening.complete]
  cases hf : Delimiter.drop.finish? t with
  | none => rw [closedEnd_eq_throw h hf]; rfl
  | some found =>
    obtain ⟨inner, rest⟩ := found
    rw [closedEnd_eq h hf, pure_bind, span_ofText, pure_bind]
    rfl

theorem liquidTag_eq (h : Stands source ⟨i, Delimiter.tag.opening ++ t⟩) :
    liquidTag source i = completed i .tag t := by
  rw [liquidTag, completed, Opening.complete]
  cases hf : Delimiter.tag.finish? t with
  | none => rw [closedEnd_eq_throw h hf]; rfl
  | some found =>
    obtain ⟨inner, rest⟩ := found
    have hopening := stands_finish h hf
    rw [closedEnd_eq h hf, pure_bind, span_ofText, pure_bind,
      tag_eq (within_iff_stands.2 ⟨rest, hopening⟩), pure_bind]
    simp only []
    cases hraw : Keyword.isRawTag (Tag.ofInner inner).name with
    | false => rfl
    | true =>
      have hbehind : Stands source ⟨i + Text.size (Delimiter.tag.enclose inner), rest⟩ :=
        stands_skip hopening
      have hclose : rawTagClose? source (Tag.ofInner inner).name
          (i + Text.size (Delimiter.tag.enclose inner)) =
            pure ((Raw.readTagOnto? (Tag.ofInner inner).name [] rest).map fun found =>
              .ofText (i + Text.size (Delimiter.tag.enclose inner) + Text.size found.1)
                (Delimiter.tag.enclose found.2.1)) := rawTagClose?_eq [] rest hbehind
      change (rawTagClose? source _ (i + Text.size (Delimiter.tag.enclose inner)) >>= _) = _
      rw [hclose, pure_bind]
      simp only [Raw.readTag?, if_true]
      cases hr : Raw.readTagOnto? (Tag.ofInner inner).name [] rest with
      | none => rfl
      | some found =>
        obtain ⟨body, closing, rest'⟩ := found
        have hstop : i + Text.size (Delimiter.tag.enclose inner) + Text.size body +
            Text.size (Delimiter.tag.enclose closing) =
              i + Text.size (Lexeme.chars (.rawTag inner body closing)) := by
          simp only [Lexeme.chars, Text.size_append]
          omega
        simp only [Option.map_some, Span.ofText]
        rw [span_ofText, pure_bind, hstop, span_ofText, pure_bind]
        rfl

theorem comment_eq (h : Stands source ⟨i, Delimiter.comment.opening ++ t⟩) :
    comment source i = completed i .comment t := by
  have hbody := stands_skip h
  rw [completed, Opening.complete, Delimiter.finish?]
  simp only [comment]
  rw [find_eq hbody, pure_bind]
  cases hf : Text.splitFirst? Delimiter.comment.closing t with
  | none => rfl
  | some found =>
    obtain ⟨body, rest⟩ := found
    have hstop : i + Text.size Delimiter.comment.opening + Text.size body +
        Text.size Delimiter.comment.closing = i + Text.size (Lexeme.chars (.comment body)) := by
      simp only [Lexeme.chars, Delimiter.enclose, Text.size_append]
      omega
    simp only [Option.map_some]
    rw [span_ofText, pure_bind, hstop, span_ofText, pure_bind]
    rfl

theorem size_trimEnd_le (t : Text) : Text.size (Text.trimEnd t) ≤ Text.size t := by
  have h := congrArg Text.size
    (List.takeWhile_append_dropWhile (p := Text.isBlank) (l := t.reverse))
  rw [Text.size_append, Text.size_reverse] at h
  rw [Text.trimEnd, Text.size_reverse]
  omega

/-- Trimming at the end leaves what stands in front and what trimming on both sides leaves. -/
theorem trimEnd_eq {t : Text} (ht : Text.trim t ≠ []) :
    Text.trimEnd t = Text.leadingBlanks t ++ Text.trim t := by
  have hkept : ((Text.trimStart t).reverse.dropWhile Text.isBlank).isEmpty = false := by
    rw [List.isEmpty_eq_false_iff]
    intro h
    rw [Text.trim, Text.trimEnd, h] at ht
    exact ht rfl
  have happ : t.reverse = (Text.trimStart t).reverse ++ (Text.leadingBlanks t).reverse := by
    rw [← List.reverse_append, Text.leadingBlanks_append_trimStart]
  rw [Text.trimEnd, happ, List.dropWhile_append, hkept, if_neg Bool.false_ne_true,
    List.reverse_append, List.reverse_reverse]
  rfl

theorem trimmed_eq {raw rest : Text} {start : Nat} (h : Stands source ⟨start, raw ++ rest⟩) :
    trimmed source start (start + Text.size raw) =
      pure (.ofText (start + Text.size (Text.leadingBlanks raw)) (Text.trim raw)) := by
  have hstart : Text.size (Text.leadingBlanks raw) + Text.size (Text.trimStart raw) =
      Text.size raw := by
    rw [← Text.size_append, Text.leadingBlanks_append_trimStart]
  have hend : Text.size (Text.trimEnd raw) ≤ Text.size raw := size_trimEnd_le raw
  rw [trimmed, slice_eq h rfl, pure_bind, minus_trimStart, pure_bind, minus_eq hend, pure_bind]
  by_cases hblank : Text.trimStart raw = []
  · have htrim : Text.trim raw = [] := by
      rw [Text.trim, hblank]
      rfl
    rw [hblank, Text.size_nil] at hstart
    rw [if_pos (by omega), htrim, show Text.size raw = Text.size (Text.leadingBlanks raw) by omega]
    exact span_ofText _ []
  · have hpos := Text.size_pos hblank
    have htrim : Text.trim raw ≠ [] := by
      intro h
      have hblanks := Text.blanks_append_of_stops (Text.trim_eq_nil_iff.1 h)
        (by simp [Text.Stops] : Text.Stops Text.isBlank [])
      rw [List.append_nil] at hblanks
      exact hblank hblanks.2
    have hsize := congrArg Text.size (trimEnd_eq htrim)
    rw [Text.size_append] at hsize
    rw [if_neg (by omega), minus_eq (by omega), pure_bind,
      show start + Text.size raw - (Text.size raw - Text.size (Text.trimEnd raw)) =
        start + Text.size (Text.leadingBlanks raw) + Text.size (Text.trim raw) by omega]
    exact span_ofText _ _

theorem doctype_eq {keyword : Text} (hk : Keyword.fold keyword = "doctype".toList)
    (h : Stands source ⟨i, ['<', '!'] ++ keyword ++ t⟩) :
    doctype source i = completed i (.doctype keyword) t := by
  have hkeyword : Text.size keyword = 7 := by rw [← Keyword.size_fold, hk]; rfl
  have hword : Text.size "<!doctype".toList = 2 + Text.size keyword := by rw [hkeyword]; rfl
  have hvalue : Stands source ⟨i + 2 + Text.size keyword, t⟩ := by
    have := stands_skip h
    rwa [Text.size_append, ← Nat.add_assoc] at this
  rw [completed, Opening.complete]
  simp only [doctype]
  rw [hword, ← Nat.add_assoc, find_eq hvalue, pure_bind]
  cases hf : Text.splitFirst? ['>'] t with
  | none => rfl
  | some found =>
    obtain ⟨raw, rest⟩ := found
    have hraw : Stands source ⟨i + 2 + Text.size keyword, raw ++ (['>'] ++ rest)⟩ := by
      rwa [Text.append_of_splitFirst? hf, List.append_assoc] at hvalue
    have hstop : i + 2 + Text.size keyword + Text.size raw + 1 =
        i + Text.size (Lexeme.chars (.doctype keyword raw)) := by
      simp only [Lexeme.chars, Text.size_append, ← Nat.add_assoc]
      rfl
    simp only [Option.map_some]
    rw [trimmed_eq hraw, pure_bind, hstop, span_ofText, pure_bind]
    rfl

theorem endTag_eq (hs : Opening.startsName t = true) (h : Stands source ⟨i, ['<', '/'] ++ t⟩) :
    endTag source i = completed i .endTag t := by
  have hname : Stands source ⟨i + 2, t⟩ := stands_skip h
  rw [endTag, tagName_eq hs hname, completed, Opening.complete]
  cases hn : TagName.read t with
  | error flaw => rfl
  | ok found =>
    obtain ⟨name, rest⟩ := found
    rw [TagName.append_of_read hn] at hname
    have hrest : Stands source ⟨(NameParts.ofName (i + 2) name).whole.stop, rest⟩ :=
      stands_skip hname
    simp only [Except.map, ofExcept_ok, pure_bind]
    rw [blanksEnd_eq hrest, pure_bind, hasByte_eq (stands_blanks hrest) rfl]
    cases htail : Text.trimStart rest with
    | nil => rfl
    | cons c rest' =>
      by_cases hc : c = '>'
      · subst hc
        have hstop : (NameParts.ofName (i + 2) name).whole.stop +
            Text.size (Text.leadingBlanks rest) + 1 =
              i + Text.size (Lexeme.chars (.endTag name (Text.leadingBlanks rest))) := by
          simp only [NameParts.ofName, Span.ofText, Lexeme.chars, Text.size_append,
            size_endOpening, size_closing]
          omega
        change (span i _ >>= _) = _
        rw [hstop, span_ofText, pure_bind]
        rfl
      · simp [hc]

theorem rawName?_eq {head : Head} (h : Stands source ⟨i, head.chars ++ t⟩) :
    rawName? source (.ofHead i head) = pure head.rawName? := by
  have hname : Located.Within ⟨i + 1, head.name.chars⟩ ⟨0, source⟩ :=
    Head.within_name.trans (within_iff_stands.2 ⟨t, h⟩)
  obtain ⟨name, attributes, gap, selfClosing⟩ := head
  cases name with
  | dynamic inner => rfl
  | fixed name =>
    have hslice : slice source (.ofText (i + 1) name) = pure name := slice_of_within hname
    change (slice source (.ofText (i + 1) name) >>= _) = _
    rw [hslice, pure_bind]
    rfl

theorem not_mem_of_rawName? {head : Head} {name : Text} (h : head.rawName? = some name) :
    '>' ∉ name := by
  have hraw : Keyword.isRawElement name = true := by
    unfold Head.rawName? at h
    split at h
    · split at h
      · next hraw => cases h; exact (Bool.and_eq_true_iff.1 hraw).2
      · cases h
    · cases h
  have hfold : Keyword.fold name ∈ ["script".toList, "style".toList] :=
    List.contains_iff_mem.1 hraw
  have hscript : '>' ∉ "script".toList := by decide
  have hstyle : '>' ∉ "style".toList := by decide
  rcases List.mem_cons.1 hfold with hfold | hfold
  · exact not_mem_of_fold hscript hfold
  · exact not_mem_of_fold hstyle (List.mem_singleton.1 hfold)

theorem startTag_eq (hs : Opening.startsName t = true) (h : Stands source ⟨i, '<' :: t⟩) :
    startTag source i = completed i .startTag t := by
  rw [startTag, head_eq hs h, completed, Opening.complete]
  cases hh : Head.read t with
  | error flaw => rfl
  | ok found =>
    obtain ⟨head, rest⟩ := found
    have hhead : Stands source ⟨i, head.chars ++ rest⟩ := by
      rwa [Head.append_of_read hh] at h
    simp only [Except.map, ofExcept_ok, pure_bind]
    rw [rawName?_eq hhead, pure_bind]
    cases hr : head.rawName? with
    | none => rfl
    | some name =>
      simp only []
      change (rawElementClose? source name (i + Text.size head.chars) >>= _) = _
      rw [rawElementClose?_eq (not_mem_of_rawName? hr) (stands_skip hhead), pure_bind]
      cases he : Raw.readElement? name rest with
      | none => rfl
      | some found =>
        obtain ⟨e, rest'⟩ := found
        have hstop : i + Text.size head.chars + Text.size e.body +
            Text.size (['<', '/'] ++ e.name ++ e.gap ++ ['>']) =
              i + Text.size (Lexeme.chars (.rawElement head e.body e.name e.gap)) := by
          simp only [Lexeme.chars, Text.size_append]
          omega
        change (span (i + Text.size head.chars) (i + Text.size head.chars + Text.size e.body) >>= _)
          = _
        rw [span_ofText, pure_bind]
        change (span i (i + Text.size head.chars + Text.size e.body +
            Text.size (['<', '/'] ++ e.name ++ e.gap ++ ['>'])) >>= _) = _
        rw [hstop, span_ofText, pure_bind]
        simp only [Span.ofText, hstop]
        rfl

theorem construct_eq {o : Opening} {rest : Text} (h : Stands source ⟨i, t⟩)
    (ho : Opening.ofText? t = some (o, rest)) : construct source i = completed i o rest := by
  obtain ⟨rfl, hfits⟩ := Opening.ofText?_eq_some_iff.1 ho
  rw [construct, constructAt_eq h, ho, Option.map_some, pure_bind]
  cases o with
  | drop => exact drop_eq h
  | tag => exact liquidTag_eq h
  | comment => exact comment_eq h
  | doctype keyword => exact doctype_eq hfits h
  | endTag => exact endTag_eq hfits h
  | startTag => exact startTag_eq hfits h

theorem token_eq {l : Lexeme} {rest : Text} (h : Stands source ⟨i, t⟩)
    (hn : Lexeme.next? t = some (l, rest)) :
    token source i = pure (Token.reading ⟨i, l⟩) := by
  cases t with
  | nil => cases hn
  | cons c more =>
    simp only [Lexeme.next?] at hn
    cases ho : Opening.ofText? (c :: more) with
    | none =>
      rw [ho] at hn
      have hmore : Stands source ⟨i + c.utf8Size, more⟩ := stands_skip (s := [c]) h
      cases hn
      rw [token, construct, constructAt_eq h, ho, Option.map_none, pure_bind]
      simp only []
      rw [(textEnd_skip ho h).2, textEnd_eq hmore, pure_bind, Nat.add_assoc, ← Text.size_cons,
        span_ofText, pure_bind]
      rfl
    | some found =>
      obtain ⟨o, r⟩ := found
      rw [token, construct_eq h ho, completed]
      rw [ho] at hn
      simp only at hn
      cases hc : o.complete r with
      | ok found =>
        rw [hc] at hn
        cases hn
        rfl
      | error flaw =>
        rw [hc] at hn
        cases hn
        have hsize : i + Text.size (c :: more) = Text.size source := Cursor.size_text h
        change (span i (Text.size source) >>= _) = _
        rw [← hsize, span_ofText, pure_bind]
        rfl

/-- Either the template ends here, or a token stands here, and the loop gets on to the text behind
it, of which there is less. -/
theorem token_cases (h : Stands source ⟨i, t⟩) :
    (¬ i < Text.size source ∧ Token.ofTextAt i t = []) ∨
      ∃ l rest, i < Text.size source ∧ token source i = pure (Token.reading ⟨i, l⟩) ∧
        Token.ofTextAt i t = ⟨i, l⟩ :: Token.ofTextAt (i + l.size) rest ∧
          Located.Within ⟨i, l.chars⟩ ⟨0, source⟩ ∧ Stands source ⟨i + l.size, rest⟩ ∧
            rest.length < t.length ∧
              ∃ on, further source i (Token.reading ⟨i, l⟩).whole.stop = pure on := by
  have hsize : i + Text.size t = Text.size source := Cursor.size_text h
  cases hn : Lexeme.next? t with
  | none =>
    have ht : t = [] := by
      rw [← Lexeme.flatMap_chars_ofText t, Lexeme.ofText_eq, hn]
      rfl
    subst ht
    refine .inl ⟨?_, by rw [Token.ofTextAt, Lexeme.ofText_nil, Located.locate_nil]⟩
    rw [Text.size_nil] at hsize
    omega
  | some found =>
    obtain ⟨l, rest⟩ := found
    have happ := Lexeme.append_of_next? hn
    have hpos : 0 < l.size := Lexeme.size_pos_of_next? hn
    have hstands : Stands source ⟨i, l.chars ++ rest⟩ := happ ▸ h
    refine .inr ⟨l, rest, ?_, token_eq h hn, ?_, within_iff_stands.2 ⟨rest, hstands⟩,
      stands_skip hstands, Lexeme.length_lt_of_next? hn,
      further_eq (Lexeme.chars_ne_nil_of_next? hn) hstands rfl⟩
    · rw [happ, Text.size_append, ← Lexeme.size] at hsize
      omega
    · rw [Token.ofTextAt, Lexeme.ofText_of_next? hn, Located.locate_cons]
      rfl

theorem tokens_eq (h : Stands source ⟨i, t⟩) :
    tokens source i = pure ((Token.ofTextAt i t).map Token.reading) := by
  induction hlen : t.length using Nat.strongRecOn generalizing t i with
  | ind n ih =>
    rw [tokens]
    rcases token_cases h with
      ⟨hend, htokens⟩ | ⟨l, rest, hlt, htoken, htokens, -, hrest, hless, _, hon⟩
    · rw [if_neg hend, htokens]
      rfl
    · rw [if_pos hlt, htoken, pure_bind, htokens, hon, pure_bind]
      change (tokens source (i + l.size) >>= _) = _
      rw [ih rest.length (by omega) hrest rfl, pure_bind]
      rfl

end Reader

end LiquidTemplate
