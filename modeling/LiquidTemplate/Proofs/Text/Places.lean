import Mathlib.Order.Bounds.Basic
import LiquidTemplate.Proofs.Text.Boundary
import LiquidTemplate.Proofs.Text.FirstOccurrence

/-!
# The places where something begins

A search by offsets is about a set of offsets: those from a start on at which what is left of the
text passes (`Text.placesFrom`). The first suffix on which a test succeeds is the one at the least
of them (`isLeast_of_firstSuffix?`), and there is none if and only if the set is empty
(`firstSuffix?_eq_none_iff_places`).
-/

namespace LiquidTemplate.Text

/-- The offsets from `start` on at which what is left of the text passes. -/
def placesFrom (source : Text) (start : Nat) (P : Text → Prop) : Set Nat :=
  {i | start ≤ i ∧ ∃ before rest, source = before ++ rest ∧ size before = i ∧ P rest}

section

variable {before rest : Text} {P : Text → Prop} {i : Nat}

/-- From a boundary on, the places are those of the text behind it. -/
theorem mem_placesFrom_iff :
    i ∈ placesFrom (before ++ rest) (size before) P ↔
      ∃ m t, rest = m ++ t ∧ i = size before + size m ∧ P t := by
  constructor
  · rintro ⟨hle, front, t, hsplit, rfl, hP⟩
    rcases List.append_eq_append_iff.1 hsplit with ⟨m, rfl, rfl⟩ | ⟨m, rfl, rfl⟩
    · exact ⟨m, t, rfl, size_append _ _, hP⟩
    · -- the place is not in front of the boundary, so nothing is between them
      obtain rfl : m = [] := by
        by_contra hm
        have := size_pos hm
        rw [size_append] at hle
        omega
      exact ⟨[], rest, rfl, by simp, hP⟩
  · rintro ⟨m, t, rfl, rfl, hP⟩
    exact ⟨Nat.le_add_right _ _, before ++ m, t, by simp, size_append _ _, hP⟩

theorem placesFrom_eq_empty_iff :
    placesFrom (before ++ rest) (size before) P = ∅ ↔ ∀ p q, rest = p ++ q → ¬ P q := by
  rw [Set.eq_empty_iff_forall_notMem]
  constructor
  · intro h p q hpq hP
    exact h _ (mem_placesFrom_iff.2 ⟨p, q, hpq, rfl, hP⟩)
  · intro h i hi
    obtain ⟨m, t, hmt, -, hP⟩ := mem_placesFrom_iff.1 hi
    exact h m t hmt hP

variable (before) in
/-- The least place is the one that no other is in front of. -/
theorem isLeast_placesFrom (m : Text) {t : Text} (hP : P t)
    (h : ∀ p q, m = p ++ q → q ≠ [] → ¬ P (q ++ t)) :
    IsLeast (placesFrom (before ++ (m ++ t)) (size before) P) (size before + size m) := by
  refine ⟨mem_placesFrom_iff.2 ⟨m, t, rfl, rfl, hP⟩, fun i hi => ?_⟩
  obtain ⟨p, q, hpq, rfl, hq⟩ := mem_placesFrom_iff.1 hi
  rcases List.append_eq_append_iff.1 hpq with ⟨u, rfl, -⟩ | ⟨u, rfl, rfl⟩
  · rw [size_append]
    omega
  · by_cases hu : u = []
    · rw [hu, List.append_nil]
    · exact absurd hq (h p u rfl hu)

end

/-! ## Searching -/

section

variable {β : Type} {test : Text → Option β} {P : Text → Prop} {t m : Text} {b : β}

theorem isLeast_of_firstSuffix? (hP : ∀ t, P t ↔ ∃ b, test t = some b) (before : Text)
    (h : firstSuffix? test t = some (m, b)) :
    IsLeast (placesFrom (before ++ t) (size before) P) (size before + size m) := by
  obtain ⟨suffix, rfl, hb, hfail⟩ := firstSuffix?_eq_some_iff.1 h
  refine isLeast_placesFrom _ _ ((hP _).2 ⟨b, hb⟩) fun p q hpq hq hPq => ?_
  obtain ⟨b', hb'⟩ := (hP _).1 hPq
  exact Option.some_ne_none b' (hb'.symm.trans (hfail p q hpq hq))

theorem firstSuffix?_eq_none_iff_places (hP : ∀ t, P t ↔ ∃ b, test t = some b) (before : Text) :
    firstSuffix? test t = none ↔ placesFrom (before ++ t) (size before) P = ∅ := by
  rw [firstSuffix?_eq_none_iff, placesFrom_eq_empty_iff]
  refine forall₃_congr fun p q _ => ?_
  rw [hP, Option.eq_none_iff_forall_ne_some, not_exists]

end

section

variable {pattern t m after : Text}

theorem prefix_iff_after? : pattern <+: t ↔ ∃ rest, after? pattern t = some rest :=
  exists_congr fun _ => eq_comm.trans after?_eq_some_iff.symm

theorem isLeast_of_splitFirst? (before : Text) (h : splitFirst? pattern t = some (m, after)) :
    IsLeast (placesFrom (before ++ t) (size before) (pattern <+: ·)) (size before + size m) :=
  isLeast_of_firstSuffix? (fun _ => prefix_iff_after?) before h

theorem splitFirst?_eq_none_iff_places (before : Text) :
    splitFirst? pattern t = none ↔
      placesFrom (before ++ t) (size before) (pattern <+: ·) = ∅ :=
  firstSuffix?_eq_none_iff_places (fun _ => prefix_iff_after?) before

end

end LiquidTemplate.Text
