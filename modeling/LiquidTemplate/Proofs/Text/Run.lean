import LiquidTemplate.Text.Blank

/-!
# Maximal runs

A run of characters that pass a test is maximal when the text behind it does not go on with one
(`Stops`). Only the next character decides that, so the run is found again when what follows that
character is replaced.
-/

namespace LiquidTemplate.Text

/-- The text does not begin with a character that passes. -/
def Stops (p : Char → Bool) (t : Text) : Prop := ∀ c ∈ t.head?, p c = false

theorem stops_cons {p : Char → Bool} {c : Char} {t : Text} : Stops p (c :: t) ↔ p c = false := by
  simp [Stops]

theorem stops_dropWhile (p : Char → Bool) (t : Text) : Stops p (t.dropWhile p) := by
  intro c hc
  have h := List.head?_dropWhile_not p t
  rw [Option.mem_def.1 hc] at h
  simpa using h

/-- The first character alone decides. -/
theorem Stops.append {p : Char → Bool} {u x y : Text} (hu : u ≠ []) (h : Stops p (u ++ x)) :
    Stops p (u ++ y) := by
  cases u with
  | nil => exact absurd rfl hu
  | cons c u => exact stops_cons.2 (stops_cons.1 h)

theorem takeWhile_append_of_stops {p : Char → Bool} {run rest : Text}
    (hrun : ∀ c ∈ run, p c = true) (hrest : Stops p rest) :
    (run ++ rest).takeWhile p = run ∧ (run ++ rest).dropWhile p = rest := by
  rw [List.takeWhile_append_of_pos hrun, List.dropWhile_append_of_pos hrun]
  cases rest with
  | nil => simp
  | cons c rest =>
    have hc := stops_cons.1 hrest
    simp [hc]

theorem mem_takeWhile_imp {p : Char → Bool} {t : Text} : ∀ c ∈ t.takeWhile p, p c = true :=
  fun c hc => List.all_eq_true.1 List.all_takeWhile c hc

/-! ## Blanks -/

/-- No blank is a letter of ASCII. -/
theorem toNat_of_isBlank {c : Char} (h : isBlank c = true) : c.toNat ≤ 0x20 ∨ 0x85 ≤ c.toNat := by
  obtain ⟨r, hr, hlow, hhigh⟩ := isBlank_iff.1 h
  have hranges : ∀ r ∈ blankRanges, r.2 ≤ 0x20 ∨ 0x85 ≤ r.1 := by decide
  rcases hranges r hr with hr | hr <;> omega

theorem toLower_of_isBlank {c : Char} (h : isBlank c = true) : c.toLower = c := by
  have hrange : ¬ (c.val ≥ 'A'.val ∧ c.val ≤ 'Z'.val) := by
    rintro ⟨hlow, hhigh⟩
    have hlow : 65 ≤ c.toNat := hlow
    have hhigh : c.toNat ≤ 90 := hhigh
    have := toNat_of_isBlank h
    omega
  exact dif_neg hrange

theorem not_isAlpha_of_isBlank {c : Char} (h : isBlank c = true) : c.isAlpha = false := by
  cases ha : c.isAlpha with
  | false => rfl
  | true =>
    have hletter : c.isAlpha = (decide (c.val ≥ 'A'.val ∧ c.val ≤ 'Z'.val) ||
        (decide (c.val ≥ 'a'.val) && decide (c.val ≤ 'z'.val))) := rfl
    have hrange : (65 ≤ c.toNat ∧ c.toNat ≤ 90) ∨ (97 ≤ c.toNat ∧ c.toNat ≤ 122) := by
      simpa [hletter, UInt32.le_iff_toNat_le] using ha
    have := toNat_of_isBlank h
    omega

/-- A text of blanks only. -/
def AllBlank (t : Text) : Prop := ∀ c ∈ t, isBlank c = true

instance (t : Text) : Decidable (AllBlank t) :=
  decidable_of_iff (t.all isBlank = true) List.all_eq_true

theorem isBlank_eq_false_of_any {t : Text} (h : t.any isBlank = false) :
    ∀ c ∈ t, isBlank c = false := fun c hc => by
  simpa using List.any_eq_false.1 h c hc

theorem allBlank_nil : AllBlank [] := by simp [AllBlank]

theorem AllBlank.append {s t : Text} (hs : AllBlank s) (ht : AllBlank t) : AllBlank (s ++ t) := by
  intro c hc
  rcases List.mem_append.1 hc with h | h
  · exact hs c h
  · exact ht c h

theorem allBlank_leadingBlanks (t : Text) : AllBlank (leadingBlanks t) := mem_takeWhile_imp

theorem stops_trimStart (t : Text) : Stops isBlank (trimStart t) := stops_dropWhile isBlank t

theorem blanks_append_of_stops {blanks rest : Text} (hb : AllBlank blanks)
    (h : Stops isBlank rest) :
    leadingBlanks (blanks ++ rest) = blanks ∧ trimStart (blanks ++ rest) = rest :=
  takeWhile_append_of_stops hb h

/-- Blanks end in front of a character that is none. -/
theorem blanks_append_cons {c : Char} (hc : isBlank c = false) (t rest : Text) :
    leadingBlanks (leadingBlanks t ++ c :: rest) = leadingBlanks t ∧
      trimStart (leadingBlanks t ++ c :: rest) = c :: rest :=
  blanks_append_of_stops (allBlank_leadingBlanks t) (stops_cons.2 hc)

/-- Where a text has more than blanks, trimming it does not reach what follows. -/
theorem trimStart_append {u : Text} (hu : trimStart u ≠ []) (x : Text) :
    trimStart (u ++ x) = trimStart u ++ x ∧ leadingBlanks (u ++ x) = leadingBlanks u := by
  have hs : Stops isBlank (trimStart u ++ x) :=
    Stops.append hu (by simpa using stops_trimStart u : Stops isBlank (trimStart u ++ []))
  have h := blanks_append_of_stops (allBlank_leadingBlanks u) hs
  rw [← List.append_assoc, leadingBlanks_append_trimStart] at h
  exact ⟨h.2, h.1⟩

end LiquidTemplate.Text
