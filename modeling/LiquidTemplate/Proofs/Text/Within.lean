import LiquidTemplate.Text.Located
import LiquidTemplate.Proofs.Text.Slice

/-!
# Texts within texts

A text at an offset is part of another one when it stands there and the offset says so
(`Located.Within`). Whatever is within a part is within the whole, so where a small part of a
template stands is known from the steps that lead to it; being within the template is to be sliced
from it (`Located.within_iff_slice?`).
-/

namespace LiquidTemplate.Located

/-- The text `x` is part of the text `y` and starts where it says. -/
def Within (x y : Located Text) : Prop :=
  ∃ before after, y.item = before ++ x.item ++ after ∧ x.start = y.start + Text.size before

theorem Within.refl (x : Located Text) : x.Within x := ⟨[], [], by simp, rfl⟩

theorem Within.trans {x y z : Located Text} (h : x.Within y) (h' : y.Within z) : x.Within z := by
  obtain ⟨b, a, hy, hx⟩ := h
  obtain ⟨b', a', hz, hy'⟩ := h'
  refine ⟨b' ++ b, a ++ a', ?_, ?_⟩
  · rw [hz, hy]
    simp
  · rw [hx, hy', Text.size_append, Nat.add_assoc]

/-- A part is contained in the whole. -/
theorem Within.le {x y : Located Text} (h : x.Within y) :
    y.start ≤ x.start ∧ x.start + Text.size x.item ≤ y.start + Text.size y.item := by
  obtain ⟨b, a, hy, hx⟩ := h
  rw [hy, hx, Text.size_append, Text.size_append]
  omega

section Append

variable (start : Nat) (s t : Text)

theorem within_append_left : Within ⟨start, s⟩ ⟨start, s ++ t⟩ := ⟨[], t, by simp, rfl⟩

theorem within_append_right : Within ⟨start + Text.size s, t⟩ ⟨start, s ++ t⟩ :=
  ⟨s, [], by simp, rfl⟩

theorem within_append_middle (u : Text) : Within ⟨start + Text.size s, t⟩ ⟨start, s ++ t ++ u⟩ :=
  (within_append_right start s t).trans (within_append_left start (s ++ t) u)

end Append

/-- Items behind others start where those end. -/
theorem locate_append {α : Type} {chars : α → Text} (start : Nat) (xs ys : List α) :
    locate (fun x => Text.size (chars x)) start (xs ++ ys) =
      locate (fun x => Text.size (chars x)) start xs ++
        locate (fun x => Text.size (chars x)) (start + Text.size (xs.flatMap chars)) ys := by
  induction xs generalizing start with
  | nil => rfl
  | cons x xs ih => simp [ih, Nat.add_assoc]

/-- A located item starts where the text of those in front of it ends. -/
theorem exists_append_of_mem_locate {α : Type} {chars : α → Text} {start : Nat} {xs : List α}
    {x : Located α} (h : x ∈ locate (fun x => Text.size (chars x)) start xs) :
    ∃ before after, xs = before ++ x.item :: after ∧
      x.start = start + Text.size (before.flatMap chars) := by
  induction xs generalizing start with
  | nil => cases h
  | cons y ys ih =>
    rw [locate_cons] at h
    rcases List.mem_cons.1 h with rfl | h
    · exact ⟨[], ys, rfl, rfl⟩
    · obtain ⟨before, after, rfl, hx⟩ := ih h
      refine ⟨y :: before, after, rfl, ?_⟩
      rw [hx, List.flatMap_cons, Text.size_append, Nat.add_assoc]

/-- Items that were cut from a text without a gap are parts of it. -/
theorem within_of_mem_locate {α : Type} {chars : α → Text} {start : Nat} {xs : List α}
    {x : Located α} (h : x ∈ locate (fun x => Text.size (chars x)) start xs) :
    Within ⟨x.start, chars x.item⟩ ⟨start, xs.flatMap chars⟩ ∧ x.item ∈ xs := by
  obtain ⟨before, after, rfl, hx⟩ := exists_append_of_mem_locate h
  exact ⟨⟨before.flatMap chars, after.flatMap chars, by simp, hx⟩, by simp⟩

/-- A part of the source is what a span covers. -/
theorem within_iff_slice? {source t : Text} {s : Span} :
    Text.slice? source s = some t ↔
      Within ⟨s.start, t⟩ ⟨0, source⟩ ∧ s.stop = s.start + Text.size t := by
  rw [Text.slice?_eq_some_iff]
  constructor
  · rintro ⟨before, after, hs, hstart, hstop⟩
    exact ⟨⟨before, after, hs, by rw [Nat.zero_add]; exact hstart.symm⟩, hstop⟩
  · rintro ⟨⟨before, after, hs, hstart⟩, hstop⟩
    exact ⟨before, after, hs, (hstart.trans (Nat.zero_add _)).symm, hstop⟩

end LiquidTemplate.Located
