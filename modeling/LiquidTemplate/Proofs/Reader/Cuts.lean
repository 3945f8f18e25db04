import LiquidTemplate.Proofs.Reader.Scanner
import LiquidTemplate.Proofs.Token.Cursor

/-!
# Cuts that succeed

Wherever a scanner stands at a character boundary it knows the text from there on, and then nothing
goes wrong: each way to cut the template gives what the text says (`rest_eq` … `tag_eq`).
-/

namespace LiquidTemplate.Reader

open Cursor (Stands)

variable {α β : Type} {source s t : Text} {i : Nat}

@[simp] theorem need_some (a : α) : need (some a) = pure a := rfl

/-- What is read from texts, as a reading. -/
def ofExcept (r : Except Flaw α) : Read α := ExceptT.mk (some r)

@[simp] theorem ofExcept_ok (a : α) : ofExcept (.ok a) = pure a := rfl

@[simp] theorem ofExcept_error (flaw : Flaw) :
    ofExcept (.error flaw : Except Flaw α) = throw flaw :=
  rfl

theorem stands_skip (h : Stands source ⟨i, s ++ t⟩) : Stands source ⟨i + Text.size s, t⟩ := by
  obtain ⟨before, hs, hi⟩ := h
  refine ⟨before ++ s, by rw [hs, List.append_assoc], ?_⟩
  rw [Text.size_append, hi]

/-- At one offset there is one text. -/
theorem stands_unique (h : Stands source ⟨i, s⟩) (h' : Stands source ⟨i, t⟩) : s = t := by
  obtain ⟨before, hs, hi⟩ := h
  obtain ⟨before', hs', hi'⟩ := h'
  have hcut := Text.splitAt?_eq_some_iff.2 ⟨hs, hi⟩
  rw [Text.splitAt?_eq_some_iff.2 ⟨hs', hi'⟩] at hcut
  exact (Prod.mk.inj (Option.some.inj hcut)).2.symm

/-- What a span covers stands at its start. -/
theorem stands_of_slice? {stop : Nat} (h : Text.slice? source ⟨i, stop⟩ = some s) :
    ∃ t, Stands source ⟨i, s ++ t⟩ ∧ stop = i + Text.size s := by
  obtain ⟨before, t, hs, hi, hstop⟩ := Text.slice?_eq_some_iff.1 h
  exact ⟨t, ⟨before, by rw [hs, List.append_assoc], hi⟩, hstop⟩

/-- Where a part of the template stands, it stands in front of the rest. -/
theorem within_iff_stands :
    Located.Within ⟨i, s⟩ ⟨0, source⟩ ↔ ∃ t, Stands source ⟨i, s ++ t⟩ := by
  constructor
  · rintro ⟨before, t, hs, hi⟩
    exact ⟨t, before, by simpa using hs, by simpa using hi.symm⟩
  · rintro ⟨t, before, hs, hi⟩
    exact ⟨before, t, by simpa using hs, by simpa using hi.symm⟩

/-! ## Cutting the template -/

theorem rest_eq (h : Stands source ⟨i, t⟩) : rest source i = pure t := by
  obtain ⟨before, hs, hi⟩ := h
  rw [rest, Text.splitAt?_eq_some_iff.2 ⟨hs, hi⟩]
  rfl

theorem slice?_eq (h : Stands source ⟨i, s ++ t⟩) {stop : Nat} (hstop : stop = i + Text.size s) :
    Text.slice? source ⟨i, stop⟩ = some s := by
  obtain ⟨before, hs, hi⟩ := h
  exact Text.slice?_eq_some_iff.2 ⟨before, t, by rw [hs, List.append_assoc], hi, hstop⟩

theorem slice_eq (h : Stands source ⟨i, s ++ t⟩) {stop : Nat} (hstop : stop = i + Text.size s) :
    slice source ⟨i, stop⟩ = pure s := by
  rw [slice, slice?_eq h hstop, need_some]

/-- A part of the template is what is cut out there. -/
theorem slice_of_within (h : Located.Within ⟨i, s⟩ ⟨0, source⟩) :
    slice source (.ofText i s) = pure s := by
  obtain ⟨t, ht⟩ := within_iff_stands.1 h
  exact slice_eq ht rfl

theorem size_endOpening : Text.size ['<', '/'] = 2 := rfl

theorem size_closing : Text.size ['>'] = 1 := rfl

theorem span_eq {start stop : Nat} (h : start ≤ stop) : span start stop = pure ⟨start, stop⟩ := by
  rw [span, if_pos h, need_some]

@[simp] theorem span_ofText (start : Nat) (t : Text) :
    span start (start + Text.size t) = pure (.ofText start t) :=
  span_eq (Nat.le_add_right _ _)

theorem minus_eq {n m : Nat} (h : m ≤ n) : minus n m = pure (n - m) := by
  rw [minus, if_pos h, need_some]

/-- What trimming in front takes away. -/
theorem minus_trimStart (t : Text) :
    minus (Text.size t) (Text.size (Text.trimStart t)) =
      pure (Text.size (Text.leadingBlanks t)) := by
  have h := congrArg Text.size (Text.leadingBlanks_append_trimStart t)
  rw [Text.size_append] at h
  rw [minus_eq (by omega), show Text.size t - Text.size (Text.trimStart t) =
    Text.size (Text.leadingBlanks t) by omega]

/-- A loop gets on where what it goes over is not empty. -/
theorem further_eq (hs : s ≠ []) (h : Stands source ⟨i, s ++ t⟩) {next : Nat}
    (hnext : next = i + Text.size s) : ∃ on, further source i next = pure on := by
  have hpos := Text.size_pos hs
  have hsize : i + Text.size s + Text.size t = Text.size source := Cursor.size_text (stands_skip h)
  refine ⟨⟨by omega, by omega⟩, ?_⟩
  rw [further, dif_pos, need_some]

theorem hasByte_eq (h : Stands source ⟨i, t⟩) {c : Char} (hc : c.utf8Size = 1) :
    hasByte source i c = (t.head? == some c) := by
  obtain ⟨before, rfl, rfl⟩ := h
  rw [hasByte, Bool.eq_iff_iff, beq_iff_eq, beq_iff_eq]
  exact Text.getElem?_utf8_append hc before t

theorem find_eq (h : Stands source ⟨i, t⟩) (pattern : Text) :
    find source pattern i =
      pure ((Text.splitFirst? pattern t).map fun found => i + Text.size found.1) := by
  rw [find, rest_eq h, pure_bind]

/-- Behind what stands before its first occurrence there is the pattern. -/
theorem stands_first {pattern before after : Text} (h : Stands source ⟨i, t⟩)
    (hf : Text.splitFirst? pattern t = some (before, after)) :
    Stands source ⟨i + Text.size before, pattern ++ after⟩ := by
  rw [Text.append_of_splitFirst? hf, List.append_assoc] at h
  exact stands_skip h

section Delimited

variable {d : Delimiter} {inner rest : Text}

theorem delimitedEnd_eq (h : Stands source ⟨i, d.opening ++ t⟩) :
    delimitedEnd source d i =
      pure ((d.finish? t).map fun found => i + Text.size (d.enclose found.1)) := by
  rw [delimitedEnd, find_eq (stands_skip h), pure_bind, Option.map_map, Delimiter.finish?]
  congr 2
  funext found
  simp [Delimiter.enclose, Nat.add_assoc]

theorem closedEnd_eq (h : Stands source ⟨i, d.opening ++ t⟩)
    (hf : d.finish? t = some (inner, rest)) :
    closedEnd source d i = pure (i + Text.size (d.enclose inner)) := by
  rw [closedEnd, delimitedEnd_eq h, hf, Option.map_some, pure_bind]

theorem closedEnd_eq_throw (h : Stands source ⟨i, d.opening ++ t⟩) (hf : d.finish? t = none) :
    closedEnd source d i = throw (.unterminated d) := by
  rw [closedEnd, delimitedEnd_eq h, hf, Option.map_none, pure_bind]

theorem stands_finish (h : Stands source ⟨i, d.opening ++ t⟩)
    (hf : d.finish? t = some (inner, rest)) :
    Stands source ⟨i, d.enclose inner ++ rest⟩ := by
  rw [Delimiter.append_of_finish? hf] at h
  simpa [Delimiter.enclose] using h

end Delimited

theorem runEnd_eq (h : Stands source ⟨i, t⟩) (p : Char → Bool) :
    runEnd source p i = pure (i + Text.size (t.takeWhile p)) := by
  rw [runEnd, rest_eq h, pure_bind]
  cases hd : t.dropWhile p with
  | cons c more => rfl
  | nil =>
    have ht : t.takeWhile p = t := by
      have := List.takeWhile_append_dropWhile (p := p) (l := t)
      rwa [hd, List.append_nil] at this
    rw [ht, ← Cursor.size_text h]

theorem stands_run (h : Stands source ⟨i, t⟩) (p : Char → Bool) :
    Stands source ⟨i + Text.size (t.takeWhile p), t.dropWhile p⟩ :=
  stands_skip (by rwa [List.takeWhile_append_dropWhile])

theorem blanksEnd_eq (h : Stands source ⟨i, t⟩) :
    runEnd source Text.isBlank i = pure (i + Text.size (Text.leadingBlanks t)) :=
  runEnd_eq h Text.isBlank

theorem stands_blanks (h : Stands source ⟨i, t⟩) :
    Stands source ⟨i + Text.size (Text.leadingBlanks t), Text.trimStart t⟩ :=
  stands_run h Text.isBlank

theorem startsWith_iff {pattern t : Text} : startsWith pattern t = true ↔ pattern <+: t := by
  rw [startsWith, Option.isSome_iff_exists]
  simp only [Text.after?_eq_some_iff]
  exact ⟨fun ⟨rest, h⟩ => ⟨rest, h.symm⟩, fun ⟨rest, h⟩ => ⟨rest, h.symm⟩⟩

/-! ## Markup -/

theorem size_enclose {d : Delimiter} (hd : d ≠ .comment) (inner : Text) :
    Text.size d.opening = 2 ∧ Text.size (d.enclose inner) = Text.size inner + 4 := by
  have hopening : Text.size d.opening = 2 := by cases d <;> first | rfl | contradiction
  have hclosing : Text.size d.closing = 2 := by cases d <;> first | rfl | contradiction
  refine ⟨hopening, ?_⟩
  rw [Delimiter.enclose, Text.size_append, Text.size_append, hopening, hclosing]
  omega

/-- What stands between two delimiters of two bytes each is cut twice more, behind the marker in
front and before the one at the end. -/
theorem extract_of_slice? {s : Span} {inner : Text} (hlong : s.start + 4 ≤ s.stop)
    (h : Text.slice? source ⟨s.start + 2, s.stop - 2⟩ = some inner) :
    extract source s =
      pure (.ofInner inner,
        .ofText (s.start + 2 + Text.size (Markup.ofInner inner).trims.start.chars)
          (Markup.ofInner inner).text) := by
  obtain ⟨t, ht, hstop⟩ := stands_of_slice? h
  let first := (Markup.ofInner inner).trims.start.chars
  let text := (Markup.ofInner inner).text
  let last := (Markup.ofInner inner).trims.stop.chars
  let behind := (Markup.splitStart inner).2
  let start := s.start + 2 + Text.size first
  have hinner : inner = first ++ behind := (Markup.chars_splitStart inner).symm
  have hbehind : behind = text ++ last := (Markup.splitStop_chars behind).symm
  have hstop' : s.stop - 2 = start + Text.size behind := by
    rw [hstop, hinner, Text.size_append, ← Nat.add_assoc]
  have hbehind' : Text.size behind = Text.size text + Text.size last := by
    rw [hbehind, Text.size_append]
  have hlast : start + Text.size behind - Text.size last = start + Text.size text := by omega
  have ht₁ : Stands source ⟨start, behind ++ t⟩ :=
    stands_skip (by rwa [hinner, List.append_assoc] at ht)
  have ht₂ : Stands source ⟨start, text ++ (last ++ t)⟩ := by
    rwa [hbehind, List.append_assoc] at ht₁
  have hlength : (guard (4 ≤ s.length) : Option Unit) = some () := by
    refine if_pos ?_
    rw [Span.length]
    omega
  rw [extract, hlength, need_some, pure_bind, minus_eq (by omega), pure_bind, slice_eq ht hstop,
    pure_bind]
  change (slice source ⟨start, s.stop - 2⟩ >>= _) = _
  rw [hstop', slice_eq ht₁ rfl, pure_bind]
  change (minus (start + Text.size behind) (Text.size last) >>= _) = _
  rw [minus_eq (by omega), pure_bind, hlast]
  change (slice source ⟨start, start + Text.size text⟩ >>= _) = _
  rw [slice_eq ht₂ rfl, pure_bind]
  change (span start (start + Text.size text) >>= _) = _
  rw [span_ofText, pure_bind]
  rfl

/-- A construct between such delimiters is long enough for them. -/
theorem extract_eq {d : Delimiter} (hd : d ≠ .comment) {inner : Text}
    (h : Stands source ⟨i, d.enclose inner ++ t⟩) :
    let start := i + 2 + Text.size (Markup.ofInner inner).trims.start.chars
    extract source (.ofText i (d.enclose inner)) =
      pure (.ofInner inner, .ofText start (Markup.ofInner inner).text) := by
  obtain ⟨hopening, hsize⟩ := size_enclose hd inner
  have hinner : Stands source ⟨i + 2, inner ++ (d.closing ++ t)⟩ := by
    rw [← hopening]
    exact stands_skip (by simpa [Delimiter.enclose] using h)
  refine extract_of_slice? (s := .ofText i (d.enclose inner)) ?_ (slice?_eq hinner ?_)
  · simp only [Span.ofText]
    omega
  · simp only [Span.ofText]
    omega

/-- A construct begins and ends with its delimiters. -/
theorem delimited_eq {d : Delimiter} (hd : d ≠ .comment) {inner : Text}
    (h : Located.Within ⟨i, d.enclose inner⟩ ⟨0, source⟩) :
    delimited source d (.ofText i (d.enclose inner)) =
      pure (.ofInner inner,
        .ofText (i + 2 + Text.size (Markup.ofInner inner).trims.start.chars)
          (Markup.ofInner inner).text) := by
  have hdelimiters : (guard (d.opening.isPrefixOf (d.enclose inner) &&
      d.closing.isSuffixOf (d.enclose inner)) : Option Unit) = some () := by
    refine if_pos (Bool.and_eq_true_iff.2 ⟨List.isPrefixOf_iff_prefix.2 ?_,
      List.isSuffixOf_iff_suffix.2 ?_⟩)
    · exact ⟨inner ++ d.closing, (List.append_assoc _ _ _).symm⟩
    · exact ⟨d.opening ++ inner, rfl⟩
  obtain ⟨t, ht⟩ := within_iff_stands.1 h
  rw [delimited, slice_of_within h, pure_bind, hdelimiters, need_some, pure_bind]
  exact extract_eq hd ht

/-- The name of a tag ends where it is cut off. -/
theorem splitAt?_splitName (t : Text) :
    Text.splitAt? (if t.head? = some '#' then 1 else Text.size (t.takeWhile Tag.isNameChar)) t =
      some (Tag.splitName t) := by
  split
  · next hsharp =>
    obtain ⟨rest, rfl⟩ := List.head?_eq_some_iff.1 hsharp
    exact Text.splitAt?_eq_some_iff.2 ⟨rfl, rfl⟩
  · next hsharp =>
    have hname : Tag.splitName t = (t.takeWhile Tag.isNameChar, t.dropWhile Tag.isNameChar) := by
      unfold Tag.splitName
      split
      · exact absurd rfl hsharp
      · rfl
    rw [hname]
    exact Text.splitAt?_eq_some_iff.2 ⟨List.takeWhile_append_dropWhile.symm, rfl⟩

theorem splitTag_eq (markup : Text) : splitTag markup = pure (Tag.split markup) := by
  simp only [splitTag]
  rw [splitAt?_splitName, need_some, pure_bind]
  rfl

theorem tag_eq {inner : Text} (h : Located.Within ⟨i, Delimiter.tag.enclose inner⟩ ⟨0, source⟩) :
    tag source (.ofText i (Delimiter.tag.enclose inner)) = pure (.ofInner inner) := by
  rw [tag, delimited_eq (by simp) h, pure_bind]
  simp only []
  rw [splitTag_eq, pure_bind]
  rfl

end LiquidTemplate.Reader
