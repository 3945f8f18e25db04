/-!
# Text measured in bytes

A template is a sequence of characters, but every offset into it counts the bytes of its UTF-8
form. This module fixes that measure (`Text.size`), half-open byte ranges (`Span`), and the two ways
to cut a text at an offset: exactly (`splitAt?`, refused inside a character) and downwards
(`splitAtMost`, which moves back to the nearest character boundary).
-/

namespace LiquidTemplate

/-- A sequence of characters. -/
abbrev Text := List Char

/-- The half-open range of bytes from `start` up to `stop`. -/
structure Span where
  start : Nat
  stop : Nat
deriving DecidableEq, Repr

namespace Span

/-- Number of bytes covered. -/
def length (s : Span) : Nat := s.stop - s.start

/-- The same range, `n` bytes further on. -/
def shift (n : Nat) (s : Span) : Span := ⟨s.start + n, s.stop + n⟩

end Span

namespace Text

/-- Number of bytes in the UTF-8 form. -/
def size (t : Text) : Nat := t.foldr (fun c n => c.utf8Size + n) 0

@[simp] theorem size_nil : size [] = 0 := rfl

@[simp] theorem size_cons (c : Char) (t : Text) : size (c :: t) = c.utf8Size + size t :=
  rfl

@[simp] theorem size_append (s t : Text) : size (s ++ t) = size s + size t := by
  induction s with
  | nil => simp
  | cons c s ih => simp [ih, Nat.add_assoc]

theorem size_pos {t : Text} (h : t ≠ []) : 0 < size t := by
  cases t with
  | nil => contradiction
  | cons c t => have := c.utf8Size_pos; simp; omega

/-! ## Cutting at an offset -/

/-- Moves characters that fit into `room` bytes from the text onto `done`, last one first. -/
def splitAtMostOnto (done : Text) (room : Nat) : Text → Text × Text
  | [] => (done.reverse, [])
  | c :: rest =>
    if c.utf8Size ≤ room then splitAtMostOnto (c :: done) (room - c.utf8Size) rest
    else (done.reverse, c :: rest)

/-- Splits at the last character boundary that is at most `offset` bytes in. -/
def splitAtMost (offset : Nat) (t : Text) : Text × Text := splitAtMostOnto [] offset t

theorem splitAtMostOnto_append (done : Text) (room : Nat) (t : Text) :
    (splitAtMostOnto done room t).1 ++ (splitAtMostOnto done room t).2 = done.reverse ++ t := by
  induction t generalizing done room with
  | nil => simp [splitAtMostOnto]
  | cons c rest ih =>
    rw [splitAtMostOnto]
    split
    · simp [ih]
    · rfl

theorem splitAtMostOnto_eq (done : Text) (room : Nat) (t : Text) :
    splitAtMostOnto done room t =
      (done.reverse ++ (splitAtMost room t).1, (splitAtMost room t).2) := by
  suffices h : ∀ more done : Text, splitAtMostOnto (more ++ done) room t =
      (done.reverse ++ (splitAtMostOnto more room t).1, (splitAtMostOnto more room t).2) from
    h [] done
  induction t generalizing room with
  | nil => simp [splitAtMostOnto]
  | cons c rest ih =>
    intro more done
    simp only [splitAtMostOnto]
    split
    · exact ih (room - c.utf8Size) (c :: more) done
    · simp

@[simp] theorem splitAtMost_nil (offset : Nat) : splitAtMost offset [] = ([], []) := rfl

theorem splitAtMost_cons (offset : Nat) (c : Char) (rest : Text) :
    splitAtMost offset (c :: rest) =
      if c.utf8Size ≤ offset then
        (c :: (splitAtMost (offset - c.utf8Size) rest).1,
          (splitAtMost (offset - c.utf8Size) rest).2)
      else ([], c :: rest) := by
  rw [splitAtMost, splitAtMostOnto]
  split
  · rw [splitAtMostOnto_eq]; rfl
  · rfl

/-- The part in front of the cut has at most `offset` bytes. -/
theorem size_splitAtMost_le (offset : Nat) (t : Text) : size (splitAtMost offset t).1 ≤ offset := by
  induction t generalizing offset with
  | nil => simp
  | cons c rest ih =>
    rw [splitAtMost_cons]
    split
    · have := ih (offset - c.utf8Size)
      simp only [size_cons]
      omega
    · simp

/-- Cutting loses nothing. -/
theorem splitAtMost_append (offset : Nat) (t : Text) :
    (splitAtMost offset t).1 ++ (splitAtMost offset t).2 = t := by
  simpa [splitAtMost] using splitAtMostOnto_append [] offset t

/-- Splits `offset` bytes in; `none` past the end or inside a character. -/
def splitAt? (offset : Nat) (t : Text) : Option (Text × Text) :=
  let parts := splitAtMost offset t
  if size parts.1 = offset then some parts else none

theorem append_of_splitAt? {offset : Nat} {t before after : Text}
    (h : splitAt? offset t = some (before, after)) :
    before ++ after = t ∧ size before = offset := by
  simp only [splitAt?] at h
  split at h
  · next hs =>
    have hp : splitAtMost offset t = (before, after) := Option.some.inj h
    have happ := splitAtMost_append offset t
    rw [hp] at hs happ
    exact ⟨happ, hs⟩
  · cases h

/-- The text a span covers (`slice`); `none` unless the span lies in `t` on character boundaries. -/
def slice? (t : Text) (s : Span) : Option Text := do
  let (_, rest) ← splitAt? s.start t
  guard (s.start ≤ s.stop)
  let (covered, _) ← splitAt? s.length rest
  return covered

end Text

end LiquidTemplate
