import LiquidTemplate.Proofs.Text.Slice

/-!
# Character boundaries

An offset is a boundary of a text when a whole number of characters stands in front of it. Cutting a
text downwards at any offset cuts it at the last boundary up to there
(`isBoundary_size_splitAtMost`, `le_size_splitAtMost`), and a span covers a text if and only if it
starts and stops at boundaries (`exists_slice?_iff`).
-/

namespace LiquidTemplate.Text

/-- Whether a character starts, or the text ends, this many bytes in. -/
def IsBoundary (t : Text) (offset : Nat) : Prop :=
  ∃ before after, t = before ++ after ∧ size before = offset

theorem IsBoundary.le_size {t : Text} {offset : Nat} (h : IsBoundary t offset) :
    offset ≤ size t := by
  obtain ⟨before, after, rfl, rfl⟩ := h
  simp

theorem isBoundary_size_splitAtMost (offset : Nat) (t : Text) :
    IsBoundary t (size (splitAtMost offset t).1) :=
  ⟨_, _, (splitAtMost_append offset t).symm, rfl⟩

/-- No boundary lies between the cut and the offset. -/
theorem le_size_splitAtMost {t : Text} {n offset : Nat} (h : IsBoundary t n) (hn : n ≤ offset) :
    n ≤ size (splitAtMost offset t).1 := by
  obtain ⟨before, after, rfl, rfl⟩ := h
  induction before generalizing offset with
  | nil => exact Nat.zero_le _
  | cons c before ih =>
    rw [size_cons] at hn
    have hc : c.utf8Size ≤ offset := by omega
    have ih := @ih (offset - c.utf8Size) (by omega)
    rw [List.cons_append, splitAtMost_cons, if_pos hc]
    simp only [size_cons]
    omega

/-- A span that covers a text starts and stops at boundaries. -/
theorem isBoundary_of_slice? {source covered : Text} {s : Span}
    (h : slice? source s = some covered) :
    IsBoundary source s.start ∧ IsBoundary source s.stop ∧ s.stop = s.start + size covered := by
  obtain ⟨before, after, rfl, hstart, hstop⟩ := slice?_eq_some_iff.1 h
  refine ⟨⟨before, covered ++ after, List.append_assoc _ _ _, hstart⟩, ?_, hstop⟩
  exact ⟨before ++ covered, after, rfl, by rw [size_append, hstart, hstop]⟩

/-- Any two boundaries, one not behind the other, are the ends of a text that a span covers. -/
theorem exists_slice?_iff {source : Text} {s : Span} :
    (∃ covered, slice? source s = some covered) ↔
      s.start ≤ s.stop ∧ IsBoundary source s.start ∧ IsBoundary source s.stop := by
  constructor
  · rintro ⟨covered, h⟩
    obtain ⟨hstart, hstop, hsize⟩ := isBoundary_of_slice? h
    exact ⟨by omega, hstart, hstop⟩
  · rintro ⟨hle, ⟨before, rest, rfl, hstart⟩, ⟨front, after, hsplit, hstop⟩⟩
    rcases List.append_eq_append_iff.1 hsplit with ⟨covered, rfl, rfl⟩ | ⟨between, rfl, rfl⟩
    · refine ⟨covered, slice?_eq_some_iff.2 ⟨before, after, by simp, hstart, ?_⟩⟩
      rw [← hstop, size_append, hstart]
    · -- the boundary that is not behind the other is the same one
      rw [size_append] at hstart
      cases between with
      | nil =>
        rw [size_nil, Nat.add_zero] at hstart
        refine ⟨[], slice?_eq_some_iff.2 ⟨front, rest, by simp, hstart, ?_⟩⟩
        rw [size_nil, Nat.add_zero, ← hstart, hstop]
      | cons c between =>
        have := c.utf8Size_pos
        rw [size_cons] at hstart
        omega

end LiquidTemplate.Text
