import LiquidTemplate.Proofs.Reader.Constructs

/-!
# Scanning verbatim bodies by offsets

The loops that look for the end of a body stand at a character boundary each time round, and find
the end tag that reading the text finds (`rawTagClose?_eq`, `rawElementClose?_eq`). Where a raw
element has an end tag that is cut off, the search goes on behind it and finds nothing: what is
missing is a `>`, and every end tag has one.
-/

namespace LiquidTemplate

namespace Reader

open Cursor (Stands)

variable {source t before rest inner rest' : Text} {i : Nat}

/-! ## Raw tags -/

/-- Once round the loop: the next tag is the end tag, or the search goes on behind it. -/
theorem rawTagClose?_step {name : Text} (h : Stands source ⟨i, t⟩)
    (h₁ : Text.splitFirst? Delimiter.tag.opening t = some (before, rest))
    (h₂ : Delimiter.tag.finish? rest = some (inner, rest')) :
    let tagStart := i + Text.size before
    rawTagClose? source name i =
      if (Tag.ofInner inner).name = Keyword.endTag name then
        pure (some (.ofText tagStart (Delimiter.tag.enclose inner)))
      else rawTagClose? source name (tagStart + Text.size (Delimiter.tag.enclose inner)) := by
  intro tagStart
  have hopening : Stands source ⟨tagStart, Delimiter.tag.opening ++ rest⟩ := stands_first h h₁
  rw [rawTagClose?, find_eq h, h₁, Option.map_some, pure_bind]
  change (delimitedEnd source .tag tagStart >>= _) = _
  rw [delimitedEnd_eq hopening, h₂, Option.map_some, pure_bind]
  simp only []
  rw [span_ofText, pure_bind, tag_eq (within_iff_stands.2 ⟨rest', stands_finish hopening h₂⟩),
    pure_bind]
  simp only [Text.after?_eq_some_iff]
  have hbehind : Stands source ⟨i, before ++ Delimiter.tag.enclose inner ++ rest'⟩ := by
    rw [List.append_assoc, Delimiter.enclose, List.append_assoc, List.append_assoc,
      ← List.append_assoc inner, ← Delimiter.append_of_finish? h₂, ← List.append_assoc,
      ← Text.append_of_splitFirst? h₁]
    exact h
  obtain ⟨_, hon⟩ : ∃ on, further source i
      (tagStart + Text.size (Delimiter.tag.enclose inner)) = pure on :=
    further_eq (by simp [Delimiter.enclose_ne_nil]) hbehind
      (by rw [Text.size_append, ← Nat.add_assoc])
  rw [hon, pure_bind]
  rfl

theorem rawTagClose?_eq {name : Text} {start : Nat} (body t : Text)
    (h : Stands source ⟨start + Text.size body, t⟩) :
    rawTagClose? source name (start + Text.size body) =
      pure ((Raw.readTagOnto? name body t).map fun found =>
        .ofText (start + Text.size found.1) (Delimiter.tag.enclose found.2.1)) := by
  fun_induction Raw.readTagOnto? name body t with
  | case1 body t h₁ =>
    rw [rawTagClose?, find_eq h, h₁]
    rfl
  | case2 body t before rest h₁ h₂ =>
    rw [rawTagClose?, find_eq h, h₁, Option.map_some, pure_bind]
    simp only []
    rw [delimitedEnd_eq (stands_first h h₁), h₂]
    rfl
  | case3 body t before rest h₁ inner rest' h₂ hname =>
    rw [rawTagClose?_step h h₁ h₂, if_pos hname]
    simp [Text.size_reverse, Nat.add_assoc]
  | case4 body t before rest h₁ inner rest' h₂ hname ih =>
    have hbehind := stands_skip (stands_finish (stands_first h h₁) h₂)
    have hgrown : start + Text.size ((Delimiter.tag.enclose inner).reverse ++
        (before.reverse ++ body)) =
          start + Text.size body + Text.size before + Text.size (Delimiter.tag.enclose inner) := by
      simp only [Text.size_append, Text.size_reverse]
      omega
    rw [rawTagClose?_step h h₁ h₂, if_neg hname, ← hgrown]
    exact ih (hgrown ▸ hbehind)

/-! ## Raw elements -/

theorem closesElement_eq {name after : Text} (h : Stands source ⟨i, ['<', '/'] ++ after⟩) :
    closesElement source name i = pure (Raw.endTagOf? name (['<', '/'] ++ after)).isSome := by
  have hafter : Stands source ⟨i + 2, after⟩ := stands_skip h
  rw [closesElement]
  cases he : Raw.endTagOf? name (['<', '/'] ++ after) with
  | some found =>
    obtain ⟨written, rest⟩ := found
    obtain ⟨happ, hfold, hends⟩ := Raw.endTagOf?_eq_some_iff.1 he
    rw [List.append_assoc] at happ
    obtain rfl := List.append_cancel_left happ
    have hsize : Text.size written = Text.size name := by
      rw [← Keyword.size_fold, hfold, Keyword.size_fold]
    rw [slice?_eq hafter (by rw [hsize])]
    simp only [hfold, if_true]
    rw [← hsize, rest_eq (stands_skip hafter), pure_bind, hends]
    rfl
  | none =>
    cases hs : Text.slice? source ⟨i + 2, i + 2 + Text.size name⟩ with
    | none => rfl
    | some written =>
      obtain ⟨rest, hwritten, hsize⟩ := stands_of_slice? hs
      obtain rfl := stands_unique hafter hwritten
      simp only []
      split
      · next hfold =>
        have hends : Raw.endsName rest = false := by
          rw [Bool.eq_false_iff]
          intro hends
          have := Raw.endTagOf?_eq_some_iff.2 ⟨(List.append_assoc _ _ _).symm, hfold, hends⟩
          rw [he] at this
          cases this
        rw [hsize, rest_eq (stands_skip hwritten), pure_bind, hends]
        rfl
      · rfl

/-- A place that is passed over starts no end tag. -/
theorem endTagOf?_eq_none {name q after : Text}
    (hq : ¬ ['<', '/'] <+: q ++ after) : Raw.endTagOf? name (q ++ after) = none := by
  cases he : Raw.endTagOf? name (q ++ after) with
  | none => rfl
  | some found =>
    obtain ⟨written, rest⟩ := found
    obtain ⟨happ, -⟩ := Raw.endTagOf?_eq_some_iff.1 he
    exact absurd ⟨written ++ rest, by rw [happ, List.append_assoc]⟩ hq

/-- The body goes on up to the next `</`, and over it if no end tag starts there. -/
theorem readElement?_step {name after : Text}
    (hf : Text.splitFirst? ['<', '/'] t = some (before, after)) :
    Raw.readElement? name t =
      match Raw.endTagOf? name (['<', '/'] ++ after) with
      | some (written, rest) =>
        (Text.splitFirst? ['>'] rest).map fun found => (⟨before, written, found.1⟩, found.2)
      | none =>
        (Raw.readElement? name after).map fun found =>
          (⟨before ++ ['<', '/'] ++ found.1.body, found.1.name, found.1.gap⟩, found.2) := by
  obtain ⟨happ, hfail⟩ := Text.splitFirst?_eq_some_iff.1 hf
  have hbefore : ∀ p q, before = p ++ q → q ≠ [] →
      Raw.endTagOf? name (q ++ (['<', '/'] ++ after)) = none := fun p q hpq hq =>
    endTagOf?_eq_none (by rw [← List.append_assoc]; exact hfail p q hpq hq)
  rw [happ, List.append_assoc]
  cases he : Raw.endTagOf? name (['<', '/'] ++ after) with
  | some found =>
    obtain ⟨written, rest⟩ := found
    have hfirst : Text.firstSuffix? (Raw.endTagOf? name) (before ++ (['<', '/'] ++ after)) =
        some (before, written, rest) := Text.firstSuffix?_eq_some_iff.2 ⟨_, rfl, he, hbefore⟩
    simp only [Raw.readElement?, hfirst, bind, Option.bind]
    cases Text.splitFirst? ['>'] rest <;> rfl
  | none =>
    have hopening : ∀ p q, ['<', '/'] = p ++ q → q ≠ [] →
        Raw.endTagOf? name (q ++ after) = none := by
      intro p q hpq hq
      rcases p with _ | ⟨_, _ | ⟨_, p⟩⟩
      · rw [← hpq.trans (List.nil_append q)]
        exact he
      · obtain rfl := (List.cons.inj hpq).2
        refine endTagOf?_eq_none ?_
        rintro ⟨r, hr⟩
        exact absurd (List.cons.inj hr).1 (by decide)
      · have hend := (List.cons.inj (List.cons.inj hpq).2).2
        exact absurd (List.append_eq_nil_iff.1 hend.symm).2 hq
    simp only [Raw.readElement?, Text.firstSuffix?_append_of_none hbefore,
      Text.firstSuffix?_append_of_none hopening]
    cases Text.firstSuffix? (Raw.endTagOf? name) after with
    | none => rfl
    | some found =>
      obtain ⟨body, written, rest⟩ := found
      simp only [Option.map_some, bind, Option.bind]
      cases Text.splitFirst? ['>'] rest with
      | none => rfl
      | some found => simp

theorem readElement?_eq_none_of_not_mem {name : Text} (h : '>' ∉ t) :
    Raw.readElement? name t = none := by
  cases he : Raw.readElement? name t with
  | none => rfl
  | some found =>
    obtain ⟨e, rest⟩ := found
    refine absurd ?_ h
    rw [Raw.append_of_readElement? he]
    simp

/-- No name that is written like `name` has a `>` either. -/
theorem not_mem_of_fold {written name : Text} (hname : '>' ∉ name)
    (h : Keyword.fold written = Keyword.fold name) : '>' ∉ written := by
  intro hw
  have hmem : Char.toLower '>' ∈ Keyword.fold name := h ▸ List.mem_map_of_mem hw
  obtain ⟨c, hc, hlow⟩ := List.mem_map.1 hmem
  rw [Keyword.eq_of_toLower (by rfl) (hlow.trans (by rfl : Char.toLower '>' = '>'))] at hc
  exact hname hc

/-- Once round the loop: the next `</` begins the end tag, or the search goes on behind it. -/
theorem rawElementClose?_step {name after : Text} (h : Stands source ⟨i, t⟩)
    (hf : Text.splitFirst? ['<', '/'] t = some (before, after)) :
    let start := i + Text.size before
    rawElementClose? source name i =
      match (Raw.endTagOf? name (['<', '/'] ++ after)).bind fun found =>
        (Text.splitFirst? ['>'] found.2).map fun gap => (found.1, gap.1) with
      | some (written, gap) =>
        pure (some (.ofText start (['<', '/'] ++ written ++ gap ++ ['>'])))
      | none => rawElementClose? source name (start + 2) := by
  intro start
  have hopening : Stands source ⟨start, ['<', '/'] ++ after⟩ := stands_first h hf
  obtain ⟨_, hon⟩ : ∃ on, further source i (start + 2) = pure on :=
    further_eq (s := before ++ ['<', '/']) (by simp) (Text.append_of_splitFirst? hf ▸ h)
      (by rw [Text.size_append, size_endOpening, ← Nat.add_assoc])
  rw [rawElementClose?, find_eq h, hf, Option.map_some, pure_bind]
  change (further source i (start + 2) >>= _) = _
  rw [hon, pure_bind]
  simp only []
  rw [closesElement_eq hopening, pure_bind]
  cases he : Raw.endTagOf? name (['<', '/'] ++ after) with
  | none => rfl
  | some found =>
    obtain ⟨written, rest⟩ := found
    obtain ⟨happ, hfold, -⟩ := Raw.endTagOf?_eq_some_iff.1 he
    have hsize : Text.size name = Text.size written := by
      rw [← Keyword.size_fold, ← hfold, Keyword.size_fold]
    have hrest : Stands source ⟨start + 2 + Text.size written, rest⟩ := by
      rw [happ] at hopening
      have := stands_skip hopening
      rwa [Text.size_append, size_endOpening, ← Nat.add_assoc] at this
    rw [Option.isSome_some, if_pos rfl, hsize, find_eq hrest, pure_bind]
    cases hg : Text.splitFirst? ['>'] rest with
    | none =>
      simp only [Option.map_none, Option.bind_some, hg]
      rfl
    | some found =>
      obtain ⟨gap, rest'⟩ := found
      have hstop : start + 2 + Text.size written + Text.size gap + 1 =
          start + Text.size (['<', '/'] ++ written ++ gap ++ ['>']) := by
        simp only [Text.size_append, size_endOpening, size_closing]
        omega
      simp only [Option.map_some, Option.bind_some, hg]
      rw [hstop, span_ofText, pure_bind]

theorem rawElementClose?_eq {name : Text} (hname : '>' ∉ name) (h : Stands source ⟨i, t⟩) :
    rawElementClose? source name i =
      pure ((Raw.readElement? name t).map fun found =>
        .ofText (i + Text.size found.1.body)
          (['<', '/'] ++ found.1.name ++ found.1.gap ++ ['>'])) := by
  induction hn : t.length using Nat.strongRecOn generalizing t i with
  | ind n ih =>
    cases hf : Text.splitFirst? ['<', '/'] t with
    | none =>
      have hnone := Text.firstSuffix?_eq_none_iff.1 hf
      have hfirst : Text.firstSuffix? (Raw.endTagOf? name) t = none :=
        Text.firstSuffix?_eq_none_iff.2 fun p q hpq => by
          have hq : ¬ ['<', '/'] <+: q ++ [] := by
            rw [List.append_nil]
            exact Text.after?_eq_none_iff.1 (hnone p q hpq)
          have : Raw.endTagOf? name (q ++ []) = none := endTagOf?_eq_none hq
          rwa [List.append_nil] at this
      rw [rawElementClose?, find_eq h, hf]
      simp only [Raw.readElement?, hfirst]
      rfl
    | some found =>
      obtain ⟨before, after⟩ := found
      have happ := Text.append_of_splitFirst? hf
      have hafter : Stands source ⟨i + Text.size before + 2, after⟩ :=
        stands_skip (stands_first h hf)
      have ih := ih after.length (by rw [← hn, happ]; simp; omega) hafter rfl
      rw [rawElementClose?_step h hf, readElement?_step hf]
      cases he : Raw.endTagOf? name (['<', '/'] ++ after) with
      | none =>
        have hgrown : ∀ body, i + Text.size before + 2 + Text.size body =
            i + Text.size (before ++ ['<', '/'] ++ body) := fun body => by
          rw [Text.size_append, Text.size_append, size_endOpening]
          omega
        simp only [Option.bind_none, ih, Option.map_map]
        congr 2
        funext found
        simp only [Function.comp, hgrown]
      | some found =>
        obtain ⟨written, rest⟩ := found
        cases hg : Text.splitFirst? ['>'] rest with
        | some found => simp [hg]
        | none =>
          obtain ⟨happ, hfold, -⟩ := Raw.endTagOf?_eq_some_iff.1 he
          rw [List.append_assoc] at happ
          have hend : '>' ∉ after := by
            rw [List.append_cancel_left happ, List.mem_append, not_or]
            exact ⟨not_mem_of_fold hname hfold, Text.splitFirst?_singleton_eq_none_iff.1 hg⟩
          rw [readElement?_eq_none_of_not_mem hend] at ih
          simpa [hg] using ih

end Reader

end LiquidTemplate
