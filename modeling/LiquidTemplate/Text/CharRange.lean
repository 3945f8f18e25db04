/-!
# Sets of characters given by ranges

A character class of a standard is a table of code point ranges in ascending order. Looking a
character up stops at the first range that starts behind it.
-/

namespace LiquidTemplate

/-- Code points from the first number through the second. -/
abbrev CharRange := Nat × Nat

namespace CharRange

/-- Whether the code point `n` lies in one of the ranges, which stand in ascending order. -/
def anyHolds (n : Nat) : List CharRange → Bool
  | [] => false
  | (low, high) :: rest => low ≤ n && (n ≤ high || anyHolds n rest)

/-- The ranges lie at or above `least`, none is empty, and each one ends before the next begins. -/
def AscendingFrom (least : Nat) : List CharRange → Prop
  | [] => True
  | (low, high) :: rest => least ≤ low ∧ low ≤ high ∧ AscendingFrom (high + 1) rest

instance decidableAscendingFrom (least : Nat) :
    (ranges : List CharRange) → Decidable (AscendingFrom least ranges)
  | [] => .isTrue trivial
  | (low, high) :: rest =>
    have := decidableAscendingFrom (high + 1) rest
    inferInstanceAs (Decidable (least ≤ low ∧ low ≤ high ∧ AscendingFrom (high + 1) rest))

theorem AscendingFrom.le {least : Nat} {ranges : List CharRange} (h : AscendingFrom least ranges) :
    ∀ r ∈ ranges, least ≤ r.1 := by
  induction ranges generalizing least with
  | nil => simp
  | cons r rest ih =>
    obtain ⟨low, high⟩ := r
    obtain ⟨hlow, hhigh, hrest⟩ := h
    intro r hr
    rcases List.mem_cons.1 hr with rfl | hr
    · exact hlow
    · have := ih hrest r hr
      omega

/-- In an ascending table the early stop misses nothing. -/
theorem anyHolds_iff {least n : Nat} {ranges : List CharRange} (h : AscendingFrom least ranges) :
    anyHolds n ranges = true ↔ ∃ r ∈ ranges, r.1 ≤ n ∧ n ≤ r.2 := by
  induction ranges generalizing least with
  | nil => simp [anyHolds]
  | cons r rest ih =>
    obtain ⟨low, high⟩ := r
    obtain ⟨-, hhigh, hrest⟩ := h
    simp only [anyHolds, Bool.and_eq_true, Bool.or_eq_true, decide_eq_true_eq, ih hrest]
    constructor
    · rintro ⟨hl, hh | ⟨r, hr, hb⟩⟩
      · exact ⟨(low, high), List.mem_cons_self, hl, hh⟩
      · exact ⟨r, List.mem_cons_of_mem _ hr, hb⟩
    · rintro ⟨r, hr, hl, hh⟩
      rcases List.mem_cons.1 hr with rfl | hr
      · exact ⟨hl, .inl hh⟩
      · have := hrest.le r hr
        exact ⟨by omega, .inr ⟨r, hr, hl, hh⟩⟩

end CharRange

end LiquidTemplate
