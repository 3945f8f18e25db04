import Mathlib.Data.Option.Basic
import LiquidTemplate.Proofs.Reader.Cuts
import LiquidTemplate.Proofs.Trim.Spelling

/-!
# Markup between any two offsets

Markup may be asked for at any span, be there delimiters at its ends or not. Whether there is any is
decided by its length and by the cuts behind the first two bytes and before the last two
(`exists_extract?_iff`). The cuts at the markers lie between these and never fail
(`Reader.extract_eq_need`).
-/

namespace LiquidTemplate

namespace Markup

variable {source : Text} {s : Span}

theorem extract?_eq_some_iff {m : Markup} {t : Span} :
    extract? source s = some (m, t) ↔ s.start + 4 ≤ s.stop ∧
      ∃ inner, Text.slice? source ⟨s.start + 2, s.stop - 2⟩ = some inner ∧ m = ofInner inner ∧
        t = .ofText (s.start + 2 + Text.size m.trims.start.chars) m.text := by
  constructor
  · intro h
    obtain ⟨_, hlong, h⟩ := Option.bind_eq_some_iff.1 h
    obtain ⟨inner, hinner, h⟩ := Option.bind_eq_some_iff.1 h
    cases h
    exact ⟨(Option.guard_eq_some' _).1 hlong, inner, hinner, rfl, rfl⟩
  · rintro ⟨hlong, inner, hinner, rfl, rfl⟩
    exact Option.bind_eq_some_iff.2
      ⟨(), if_pos hlong, Option.bind_eq_some_iff.2 ⟨inner, hinner, rfl⟩⟩

/-- There is markup where two delimiters have room and what is between them can be cut out. -/
theorem exists_extract?_iff :
    (∃ found, extract? source s = some found) ↔
      s.start + 4 ≤ s.stop ∧ Text.IsBoundary source (s.start + 2) ∧
        Text.IsBoundary source (s.stop - 2) := by
  have hcut := @Text.exists_slice?_iff source ⟨s.start + 2, s.stop - 2⟩
  constructor
  · rintro ⟨⟨m, t⟩, h⟩
    obtain ⟨hlong, inner, hinner, -⟩ := extract?_eq_some_iff.1 h
    exact ⟨hlong, (hcut.1 ⟨inner, hinner⟩).2⟩
  · rintro ⟨hlong, hstart, hstop⟩
    obtain ⟨inner, hinner⟩ := hcut.2 ⟨show s.start + 2 ≤ s.stop - 2 by omega, hstart, hstop⟩
    exact ⟨_, extract?_eq_some_iff.2 ⟨hlong, inner, hinner, rfl, rfl⟩⟩

theorem extract?_eq_none_iff :
    extract? source s = none ↔
      s.stop < s.start + 4 ∨ Text.size source < s.stop - 2 ∨
        ¬ Text.IsBoundary source (s.start + 2) ∨ ¬ Text.IsBoundary source (s.stop - 2) := by
  constructor
  · intro h
    by_contra hnot
    simp only [not_or, Nat.not_lt, not_not] at hnot
    obtain ⟨hlong, -, hstart, hstop⟩ := hnot
    obtain ⟨found, hfound⟩ := exists_extract?_iff.2 ⟨hlong, hstart, hstop⟩
    cases h.symm.trans hfound
  · intro h
    refine Option.eq_none_iff_forall_ne_some.2 fun found hfound => ?_
    obtain ⟨hlong, hstart, hstop⟩ := exists_extract?_iff.1 ⟨found, hfound⟩
    have hinside := hstop.le_size
    rcases h with h | h | h | h
    · omega
    · omega
    · exact h hstart
    · exact h hstop

/-- The text is found where it is said to stand. -/
theorem slice?_of_extract? {m : Markup} {t : Span} (h : extract? source s = some (m, t)) :
    Text.slice? source t = some m.text := by
  obtain ⟨-, inner, hinner, rfl, rfl⟩ := extract?_eq_some_iff.1 h
  obtain ⟨hwithin, -⟩ := Located.within_iff_slice?.1 hinner
  have htext := Located.within_append_middle (s.start + 2) (ofInner inner).trims.start.chars
    (ofInner inner).text (ofInner inner).trims.stop.chars
  rw [← chars, chars_ofInner] at htext
  exact Located.within_iff_slice?.2 ⟨htext.trans hwithin, rfl⟩

end Markup

namespace Reader

@[simp] theorem need_none_bind {α β : Type} (k : α → Read β) : (need none >>= k) = need none := rfl

/-- Of the cuts that taking markup makes, only the first can fail. -/
theorem extract_eq_need (source : Text) (s : Span) :
    extract source s = need (Markup.extract? source s) := by
  by_cases hlong : s.start + 4 ≤ s.stop
  · cases hinner : Text.slice? source ⟨s.start + 2, s.stop - 2⟩ with
    | some inner =>
      have hsome := Markup.extract?_eq_some_iff.2 ⟨hlong, inner, hinner, rfl, rfl⟩
      rw [extract_of_slice? hlong hinner, hsome, need_some]
    | none =>
      have hnone : Markup.extract? source s = none := by simp [Markup.extract?, hinner]
      have hlength : (guard (4 ≤ s.length) : Option Unit) = some () := by
        refine if_pos ?_
        rw [Span.length]
        omega
      rw [hnone, extract, hlength, need_some, pure_bind, minus_eq (by omega), pure_bind, slice,
        hinner, need_none_bind]
  · have hnone : Markup.extract? source s = none := by simp [Markup.extract?, hlong]
    have hlength : (guard (4 ≤ s.length) : Option Unit) = none := by
      refine if_neg ?_
      rw [Span.length]
      omega
    rw [hnone, extract, hlength, need_none_bind]

end Reader

namespace Markup

/-- **Markup is taken wherever it can be, and loses nothing.** Taking it by offsets, each cut
checked, fails exactly where there is none: where the span is too short for two delimiters of two
bytes each, or what is between them is not in the source or is cut inside a character. Else the
text is what its span covers, and it stands there between its markers: a `-` that begins the region
is the one in front, and a `-` that ends what is left of the region is the one at the end. A tag's
markup is blanks, a name, blanks and what is left, in one way only. -/
theorem extracted_and_split (source : Text) (s : Span) :
    Reader.extract source s = Reader.need (extract? source s) ∧
    (extract? source s = none ↔
      s.stop < s.start + 4 ∨ Text.size source < s.stop - 2 ∨
        ¬ Text.IsBoundary source (s.start + 2) ∨ ¬ Text.IsBoundary source (s.stop - 2)) ∧
    (∀ m t, extract? source s = some (m, t) →
      Text.slice? source t = some m.text ∧
      t.start = s.start + 2 + Text.size m.trims.start.chars ∧
      ∃ inner rest, Text.slice? source ⟨s.start + 2, s.stop - 2⟩ = some inner ∧
        inner = m.trims.start.chars ++ rest ∧ rest = m.text ++ m.trims.stop.chars ∧
        (m.trims.start = .trim ↔ inner.head? = some '-') ∧
        (m.trims.stop = .trim ↔ rest.getLast? = some '-')) ∧
    ∀ markup, Reader.splitTag markup = pure (Tag.split markup) ∧
      ∀ name rest, Tag.split markup = (name, rest) ↔ Tag.SplitsInto markup name rest := by
  refine ⟨Reader.extract_eq_need source s, extract?_eq_none_iff, fun m t h => ?_,
    fun markup => ⟨Reader.splitTag_eq markup, fun name rest => Tag.split_eq_iff⟩⟩
  have htext := slice?_of_extract? h
  obtain ⟨-, inner, hinner, rfl, rfl⟩ := extract?_eq_some_iff.1 h
  exact ⟨htext, rfl, inner, (splitStart inner).2, hinner, (chars_splitStart inner).symm,
    (splitStop_chars _).symm, fst_splitStart_eq_trim_iff, snd_splitStop_eq_trim_iff⟩

/-- A single marker is the one in front: behind it nothing is left that could end with one. -/
theorem extracted_and_split_lone_marker :
    let source := "é{{-}}".toList
    Reader.extract source ⟨2, 7⟩ = pure (⟨⟨.trim, .keep⟩, []⟩, ⟨5, 5⟩) ∧
      Text.slice? source ⟨5, 5⟩ = some [] ∧
      ∃ inner, Text.slice? source ⟨4, 5⟩ = some inner ∧ inner.head? = some '-' ∧
        inner = ['-'] ++ [] := by
  intro source
  have hfound : extract? source ⟨2, 7⟩ = some (⟨⟨.trim, .keep⟩, []⟩, ⟨5, 5⟩) := by decide
  obtain ⟨hreader, -, hplaced, -⟩ := extracted_and_split source ⟨2, 7⟩
  obtain ⟨htext, -, inner, rest, hinner, hfront, hback, hstart, -⟩ := hplaced _ _ hfound
  refine ⟨by rw [hreader, hfound, Reader.need_some], htext, inner, hinner, hstart.1 rfl, ?_⟩
  rw [hfront, hback]
  rfl

end Markup

end LiquidTemplate
