import LiquidTemplate.Text.Basic

/-!
# Lines and columns

A place counts lines and columns from one, columns in characters. The place of an offset is found
by reading the text in front of it; an offset inside a character counts as that character's start
and one past the end as the end.
-/

namespace LiquidTemplate

/-- A line and a column, both counted from one. -/
structure Place where
  line : Nat
  column : Nat
deriving DecidableEq, Repr

namespace Place

/-- Where a text begins. -/
def origin : Place := ⟨1, 1⟩

/-- The place behind one more character. -/
def advance (p : Place) (c : Char) : Place :=
  if c = '\n' then ⟨p.line + 1, 1⟩ else ⟨p.line, p.column + 1⟩

/-- The place behind a text that starts at `p`. -/
def advanceAll (p : Place) (t : Text) : Place := t.foldl advance p

/-- The place of a byte offset in a text (`line_column`). -/
def ofOffset (source : Text) (offset : Nat) : Place :=
  origin.advanceAll (Text.splitAtMost offset source).1

end Place

end LiquidTemplate
