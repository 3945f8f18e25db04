import LiquidTemplate.Proofs.Text.Slice
import LiquidTemplate.Proofs.Trim.Marker

/-!
# How markup and tags are written

Markers, markup and the name of a tag are determined by what stands between two delimiters. Said
without reading: a `-` at either end is a marker; behind blanks the name is `#` or a maximal run of
its characters, and the markup begins behind the blanks that follow it. What is written like this is
read so, and nothing else is (`Markup.ofInner_eq_iff`, `Tag.ofInner_eq_iff`).
-/

namespace LiquidTemplate

namespace Text

/-- There are no blanks around the text. -/
def Trimmed (t : Text) : Prop := Stops isBlank t ∧ Stops isBlank t.reverse

theorem trimmed_trim (t : Text) : Trimmed (trim t) := by
  refine ⟨stops_trim t, ?_⟩
  rw [trim, trimEnd, List.reverse_reverse]
  exact stops_dropWhile isBlank _

end Text

/-! ## Markers -/

namespace Markup

/-- The markup is written like this between two delimiters: a `-` at either end is a marker, and a
single one is the marker in front. -/
structure Spells (inner : Text) (m : Markup) : Prop where
  chars_eq : inner = m.trims.start.chars ++ m.text ++ m.trims.stop.chars
  start : m.trims.start = .keep → inner.head? ≠ some '-'
  stop : m.trims.stop = .keep → m.text.getLast? ≠ some '-'

theorem splitStop_of_getLast?_ne {t : Text} (h : t.getLast? ≠ some '-') :
    splitStop t = (t, .keep) := by
  have hreverse : t.reverse.head? ≠ some '-' := by rwa [List.head?_reverse]
  rw [splitStop, splitStart_of_head?_ne hreverse]

theorem fst_splitStart_eq_trim_iff {t : Text} : (splitStart t).1 = .trim ↔ t.head? = some '-' := by
  constructor
  · intro h
    unfold splitStart at h
    split at h
    · rfl
    · cases h
  · intro h
    obtain ⟨rest, rfl⟩ := List.head?_eq_some_iff.1 h
    rfl

theorem snd_splitStop_eq_trim_iff {t : Text} : (splitStop t).2 = .trim ↔ t.getLast? = some '-' := by
  rw [← List.head?_reverse, ← fst_splitStart_eq_trim_iff, splitStop]
  obtain ⟨marker, rest⟩ := splitStart t.reverse
  cases marker <;> simp

theorem head?_ne_of_splitStart {t : Text} (h : (splitStart t).1 = .keep) : t.head? ≠ some '-' := by
  rw [Ne, ← fst_splitStart_eq_trim_iff, h]
  exact Trim.noConfusion

theorem getLast?_ne_of_splitStop {t : Text} (h : (splitStop t).2 = .keep) :
    (splitStop t).1.getLast? ≠ some '-' := by
  rw [fst_splitStop_of_keep h, Ne, ← snd_splitStop_eq_trim_iff, h]
  exact Trim.noConfusion

/-- Markup is read exactly where it is written. -/
theorem ofInner_eq_iff {inner : Text} {m : Markup} : ofInner inner = m ↔ m.Spells inner := by
  constructor
  · rintro rfl
    exact ⟨(chars_ofInner inner).symm, head?_ne_of_splitStart, getLast?_ne_of_splitStop⟩
  · obtain ⟨⟨start, stop⟩, text⟩ := m
    rintro ⟨rfl, hstart, hstop⟩
    have hfront : splitStart (start.chars ++ text ++ stop.chars) = (start, text ++ stop.chars) := by
      cases start with
      | trim => rfl
      | keep => exact splitStart_of_head?_ne (hstart rfl)
    have hback : splitStop (text ++ stop.chars) = (text, stop) := by
      cases stop with
      | trim => exact splitStop_append text
      | keep =>
        rw [Trim.chars, List.append_nil]
        exact splitStop_of_getLast?_ne (hstop rfl)
    rw [ofInner, hfront]
    simp only [hback]

end Markup

/-! ## Names -/

namespace Tag

/-- The name of a tag in front of this text: `#`, or else a maximal run of the characters of a name,
which may be empty. -/
def IsName (rest name : Text) : Prop :=
  name = ['#'] ∨ (∀ c ∈ name, isNameChar c = true) ∧ Text.Stops isNameChar rest ∧
    Text.Stops (· == '#') (name ++ rest)

/-- The text is blanks, a name, blanks and markup, and the blanks are all that stand there. -/
def SplitsInto (t name markup : Text) : Prop :=
  ∃ before between, t = before ++ (name ++ (between ++ markup)) ∧ Text.AllBlank before ∧
    Text.Stops Text.isBlank (name ++ (between ++ markup)) ∧ IsName (between ++ markup) name ∧
      Text.AllBlank between ∧ Text.Stops Text.isBlank markup

theorem splitName_eq_iff {t name rest : Text} :
    splitName t = (name, rest) ↔ t = name ++ rest ∧ IsName rest name := by
  constructor
  · intro h
    refine ⟨by rw [← splitName_append t, h], ?_⟩
    unfold splitName at h
    split at h
    · cases h
      exact .inl rfl
    · next hne =>
      cases h
      refine .inr ⟨Text.mem_takeWhile_imp, Text.stops_dropWhile isNameChar t, ?_⟩
      rw [List.takeWhile_append_dropWhile]
      intro c hc
      obtain ⟨more, rfl⟩ := List.head?_eq_some_iff.1 hc
      simp only [beq_eq_false_iff_ne]
      rintro rfl
      exact hne more rfl
  · rintro ⟨rfl, rfl | ⟨hname, hrest, hhash⟩⟩
    · rfl
    · have hrun := Text.takeWhile_append_of_stops hname hrest
      unfold splitName
      split
      · next h =>
        rw [h] at hhash
        cases Text.stops_cons.1 hhash
      · rw [hrun.1, hrun.2]

/-- Markup is split where a name stands, and nowhere else. -/
theorem split_eq_iff {t name markup : Text} :
    split t = (name, markup) ↔ SplitsInto t name markup := by
  constructor
  · intro h
    obtain ⟨⟨run, rest⟩, hrest⟩ : ∃ found, splitName (Text.trimStart t) = found := ⟨_, rfl⟩
    simp only [split, hrest, Prod.mk.injEq] at h
    obtain ⟨rfl, rfl⟩ := h
    obtain ⟨ht, hname⟩ := splitName_eq_iff.1 hrest
    have hsplit := Text.leadingBlanks_append_trimStart rest
    refine ⟨Text.leadingBlanks t, Text.leadingBlanks rest, ?_, Text.allBlank_leadingBlanks t, ?_,
      ?_, Text.allBlank_leadingBlanks rest, Text.stops_trimStart rest⟩
    · rw [hsplit, ← ht, Text.leadingBlanks_append_trimStart]
    · rw [hsplit, ← ht]
      exact Text.stops_trimStart t
    · rwa [hsplit]
  · rintro ⟨before, between, rfl, hbefore, hstops, hname, hbetween, hmarkup⟩
    have hfront := (Text.blanks_append_of_stops hbefore hstops).2
    have hback := (Text.blanks_append_of_stops hbetween hmarkup).2
    simp only [split, hfront, splitName_eq_iff.2 ⟨rfl, hname⟩, hback]

/-- The tag is written like this between its delimiters. -/
def Spells (inner : Text) (t : Tag) : Prop :=
  ∃ text, Markup.Spells inner ⟨t.trims, text⟩ ∧ SplitsInto text t.name t.markup

/-- A tag is read exactly where it is written. -/
theorem ofInner_eq_iff {inner : Text} {t : Tag} : ofInner inner = t ↔ t.Spells inner := by
  constructor
  · rintro rfl
    exact ⟨(Markup.ofInner inner).text, Markup.ofInner_eq_iff.1 rfl, split_eq_iff.1 rfl⟩
  · obtain ⟨name, markup, trims⟩ := t
    rintro ⟨text, hmarkup, hsplit⟩
    rw [ofInner, Markup.ofInner_eq_iff.2 hmarkup, ofMarkup, split_eq_iff.2 hsplit]

end Tag

end LiquidTemplate
